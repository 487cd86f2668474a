import Mintter.Docmodel.Runs

/-!
# Mutations as drafts of a state

A mutation that was started from a proper state and edited by proper calls is
a draft of that state: its tree index holds the integrated moves and at most
one move of its own for every block, which then is the winner of the block.
No call panics on a draft, unless it names the trash as left sibling.
-/

namespace Mintter.Docmodel

open Mintter.Foundation
open TreeMutation

/-- The block is a node below the root, other than the trash. -/
structure ProperPlace (block parent : String) : Prop where
  ne_root : block ≠ ""
  ne_trash : block ≠ trashNodeID
  ne_parent : block ≠ parent

instance (block parent : String) : Decidable (ProperPlace block parent) :=
  decidable_of_iff (block ≠ "" ∧ block ≠ trashNodeID ∧ block ≠ parent)
    ⟨fun places => ⟨places.1, places.2.1, places.2.2⟩,
      fun proper => ⟨proper.1, proper.2, proper.3⟩⟩

/-- A valid state whose moves have an origin and a proper place. -/
structure ProperState (K : Fracdex) (state : TreeCRDT) : Prop where
  valid : state.Valid K
  place : ∀ x ∈ state.log, ProperPlace x.block x.parent
  notOwn : ∀ x ∈ state.log, ¬ x.IsOwn

/-- What holds of a mutation of the state besides soundness. -/
structure Overlay (K : Fracdex) (state : TreeCRDT) (vt : TreeMutation) :
    Prop where
  base : ProperState K state
  sound : Sound K vt
  originals : vt.originalWinners = state.resolve.originalWinners
  mem_log : ∀ {x}, x ∈ state.log ↔ x ∈ vt.tree ∧ ¬ x.IsOwn
  own_wins : ∀ {x}, x ∈ vt.tree → x.IsOwn → vt.dirtyWinners x.block = some x
  hidden_iff : ∀ {x}, x ∈ vt.dirtyInvisibleMoves ↔
    x ∈ state.log ∧ vt.dirtyWinners x.block ≠ some x
  originalHidden_iff : ∀ {x}, x ∈ vt.originalInvisibleMoves ↔
    x ∈ vt.tree ∧ vt.originalWinners x.block ≠ some x
  winner_original : ∀ {block x}, vt.dirtyWinners block = some x →
    ¬ x.IsOwn → vt.originalWinners block = some x
  original_won : ∀ {block}, vt.dirtyWinners block = none →
    vt.originalWinners block = none
  parents_of_winner : ∀ {block x}, vt.dirtyWinners block = some x →
    vt.parents block = some x.parent
  parents_of_none : ∀ {block}, vt.dirtyWinners block = none →
    vt.parents block = none ∨ vt.parents block = some trashNodeID
  place : ∀ x ∈ vt.tree, ProperPlace x.block x.parent

/-- An edited mutation of the state. -/
structure Draft (K : Fracdex) (state : TreeCRDT) (vt : TreeMutation) : Prop
    extends Overlay K state vt where
  trashed : ∀ x ∈ vt.tree, x.IsOwn → x.parent = trashNodeID →
    vt.originalWinners x.block ≠ none

section Start

variable {K : Fracdex} {state : TreeCRDT}

/-- A proper place is not below the block itself. -/
theorem ProperPlace.not_selfMove {block parent : String}
    (proper : ProperPlace block parent) : ¬ SelfMove block parent :=
  fun self => proper.ne_parent self.1

theorem ProperState.noSelfMove (proper : ProperState K state) :
    state.NoSelfMove :=
  fun x member => (proper.place x member).not_selfMove

/-- A new mutation is a draft. -/
theorem ProperState.draft (proper : ProperState K state) :
    Draft K state state.resolve.settle := by
  have replayed := resolve_replayed proper.valid proper.noSelfMove
  have tree_eq : state.resolve.settle.tree = state.tree := state.resolve_tree
  have mem_tree : ∀ {x}, x ∈ state.resolve.settle.tree ↔ x ∈ state.log := by
    intro x
    rw [tree_eq, proper.valid.mem_tree]
  refine ⟨⟨proper, settle_sound proper.valid proper.noSelfMove, rfl, ?_, ?_,
    replayed.invisible_iff, ?_, fun wins _ => wins, id, ?_, ?_, ?_⟩, ?_⟩
  · intro x
    rw [mem_tree]
    exact ⟨fun member => ⟨member, proper.notOwn x member⟩, And.left⟩
  · exact fun member own => absurd own (proper.notOwn _ (mem_tree.mp member))
  · intro x
    rw [mem_tree]
    exact replayed.invisible_iff
  · intro block x wins
    exact (replayed.parents_eq block).trans (congrArg _ wins)
  · intro block none_wins
    exact Or.inl ((replayed.parents_eq block).trans (congrArg _ none_wins))
  · exact fun x member => proper.place x (mem_tree.mp member)
  · exact fun x member own => absurd own (proper.notOwn x (mem_tree.mp member))

end Start

/-! ## One call -/

section Step

variable {K : Fracdex} {state : TreeCRDT} {vt vt' : TreeMutation}
    {block parent left : String} {m : Move}

namespace Overlay

/-- The winner of a block is one of its moves. -/
theorem winner_mem (overlay : Overlay K state vt) {b : String} {x : Move}
    (winner : vt.dirtyWinners b = some x) : x ∈ vt.tree ∧ x.block = b :=
  overlay.sound.winner_mem winner

/-- A move of the index is visible when it wins. -/
theorem visible_iff (overlay : Overlay K state vt) {x : Move}
    (member : x ∈ vt.tree) : x ∉ vt.dirtyInvisibleMoves ↔
      vt.dirtyWinners x.block = some x := by
  rw [overlay.hidden_iff, not_and, not_not]
  constructor
  · intro visible
    by_cases own : x.IsOwn
    · exact overlay.own_wins member own
    · exact visible (overlay.mem_log.mpr ⟨member, own⟩)
  · exact fun wins _ => wins

/-- The original winners are integrated moves. -/
theorem original_present (overlay : Overlay K state vt) {b : String}
    {original : Move} (wasWinner : vt.originalWinners b = some original) :
    original ∈ vt.tree ∧ original.block = b ∧ ¬ original.IsOwn := by
  rw [overlay.originals] at wasWinner
  obtain ⟨member, named⟩ := (resolve_replayed overlay.base.valid
    overlay.base.noSelfMove).winner_mem wasWinner
  exact ⟨(overlay.mem_log.mp member).1, named, overlay.base.notOwn _ member⟩

/-- An own move has not won when the tree was loaded. -/
theorem original_ne_own (overlay : Overlay K state vt) (own : m.IsOwn)
    (b : String) : vt.originalWinners b ≠ some m :=
  fun wasWinner => (overlay.original_present wasWinner).2.2 own

/-- Vacating a block removes its own move. -/
theorem mem_vacated_tree (overlay : Overlay K state vt) {x : Move} :
    x ∈ (vt.vacated block parent).tree ↔
      x ∈ vt.tree ∧ (x.IsOwn → x.block ≠ block) := by
  rw [vacated]
  cases winner : vt.dirtyWinners block with
  | none =>
      refine ⟨fun member => ⟨member, ?_⟩, And.left⟩
      rintro own rfl
      rw [overlay.own_wins member own] at winner
      cases winner
  | some prev =>
      obtain ⟨present, named⟩ := overlay.winner_mem winner
      by_cases own : prev.opID.origin = ""
      · simp only [retire, own, ↓reduceIte]
        rw [KeyedList.mem_delete]
        refine and_congr_right fun member => ?_
        constructor
        · rintro place isOwn rfl
          rw [overlay.own_wins member isOwn] at winner
          exact place (congrArg _ (Option.some.inj winner))
        · intro otherBlock place
          obtain rfl := overlay.sound.index.sorted.key_injective member present
            place
          exact otherBlock own named
      · simp only [retire, own, ↓reduceIte]
        refine ⟨fun member => ⟨member, ?_⟩, And.left⟩
        rintro isOwn rfl
        rw [overlay.own_wins member isOwn] at winner
        exact own (Option.some.inj winner ▸ isOwn)

/-- When a block leaves its place, its moves are hidden with the old losers. -/
theorem mem_vacated_hidden (overlay : Overlay K state vt) {x : Move} :
    x ∈ (vt.vacated block parent).dirtyInvisibleMoves ↔
      x ∈ state.log ∧ (x.block = block ∨ vt.dirtyWinners x.block ≠ some x) := by
  rw [vacated]
  cases winner : vt.dirtyWinners block with
  | none =>
      refine overlay.hidden_iff.trans (and_congr_right fun _ => ?_)
      refine ⟨Or.inr, ?_⟩
      rintro (rfl | loses)
      · simp [winner]
      · exact loses
  | some prev =>
      obtain ⟨present, named⟩ := overlay.winner_mem winner
      by_cases own : prev.opID.origin = ""
      · simp only [retire, own, ↓reduceIte]
        rw [Finset.mem_erase, overlay.hidden_iff]
        constructor
        · exact fun hidden => ⟨hidden.2.1, Or.inr hidden.2.2⟩
        · rintro ⟨member, loses⟩
          have notPrev : x ≠ prev := by
            rintro rfl
            exact (overlay.mem_log.mp member).2 own
          refine ⟨notPrev, member, ?_⟩
          rcases loses with rfl | loses
          · rw [winner]
            exact fun same => notPrev (Option.some.inj same).symm
          · exact loses
      · simp only [retire, own, ↓reduceIte]
        rw [Finset.mem_insert, overlay.hidden_iff]
        constructor
        · rintro (rfl | hidden)
          · exact ⟨overlay.mem_log.mpr ⟨present, own⟩, Or.inl named⟩
          · exact ⟨hidden.1, Or.inr hidden.2⟩
        · rintro ⟨member, loses⟩
          by_cases isPrev : x = prev
          · exact Or.inl isPrev
          · refine Or.inr ⟨member, ?_⟩
            rcases loses with rfl | loses
            · rw [winner]
              exact fun same => isPrev (Option.some.inj same).symm
            · exact loses

theorem mem_vacated_originalHidden (overlay : Overlay K state vt) {x : Move} :
    x ∈ (vt.vacated block parent).originalInvisibleMoves ↔
      x ∈ (vt.vacated block parent).tree ∧
        vt.originalWinners x.block ≠ some x := by
  rw [overlay.mem_vacated_tree, vacated]
  cases winner : vt.dirtyWinners block with
  | none =>
      refine overlay.originalHidden_iff.trans (and_congr_left fun _ => ?_)
      refine ⟨fun member => ⟨member, ?_⟩, And.left⟩
      rintro own rfl
      rw [overlay.own_wins member own] at winner
      cases winner
  | some prev =>
      obtain ⟨present, named⟩ := overlay.winner_mem winner
      by_cases own : prev.opID.origin = ""
      · simp only [retire, own, ↓reduceIte]
        rw [Finset.mem_erase, overlay.originalHidden_iff, ← and_assoc]
        refine and_congr_left fun _ => ?_
        constructor
        · rintro ⟨notPrev, member⟩
          refine ⟨member, ?_⟩
          rintro isOwn rfl
          rw [overlay.own_wins member isOwn] at winner
          exact notPrev (Option.some.inj winner)
        · rintro ⟨member, otherBlock⟩
          refine ⟨?_, member⟩
          rintro rfl
          exact otherBlock own named
      · simp only [retire, own, ↓reduceIte]
        refine overlay.originalHidden_iff.trans (and_congr_left fun _ => ?_)
        refine ⟨fun member => ⟨member, ?_⟩, And.left⟩
        rintro isOwn rfl
        rw [overlay.own_wins member isOwn] at winner
        exact own (Option.some.inj winner ▸ isOwn)

/-- Recording an own move of the vacated block. -/
theorem placed (overlay : Overlay K state vt) (named : m.block = block)
    (under : m.parent = parent) (own : m.IsOwn)
    (proper : ProperPlace block parent)
    (free : ∀ x ∈ (vt.vacated block parent).tree,
      x.parentOrder ≠ m.parentOrder)
    (sound : Sound K ((vt.vacated block parent).placed m)) :
    Overlay K state ((vt.vacated block parent).placed m) := by
  subst named under
  have mem_tree : ∀ {x}, x ∈ ((vt.vacated m.block m.parent).placed m).tree ↔
      x = m ∨ x ∈ vt.tree ∧ (x.IsOwn → x.block ≠ m.block) := by
    intro x
    rw [← overlay.mem_vacated_tree]
    exact KeyedList.mem_set_of_fresh free
  have winner_eq : ∀ {b},
      ((vt.vacated m.block m.parent).placed m).dirtyWinners b =
        if b = m.block then some m else vt.dirtyWinners b := by
    intro b
    refine (Function.update_apply ..).trans ?_
    rw [TreeMutation.vacated, retire_dirtyWinners]
  have parents_eq : ∀ {b},
      ((vt.vacated m.block m.parent).placed m).parents b =
        if b = m.block then some m.parent else vt.parents b := by
    intro b
    refine (Function.update_apply ..).trans ?_
    rw [retire_parents]
  have originals : ((vt.vacated m.block m.parent).placed m).originalWinners =
      vt.originalWinners := retire_originalWinners _
  refine ⟨overlay.base, sound, originals.trans overlay.originals, ?_, ?_, ?_, ?_, ?_, ?_, ?_,
    ?_, ?_⟩
  · intro x
    rw [mem_tree, overlay.mem_log]
    constructor
    · rintro ⟨member, notOwn⟩
      exact ⟨Or.inr ⟨member, fun own => absurd own notOwn⟩, notOwn⟩
    · rintro ⟨rfl | ⟨member, -⟩, notOwn⟩
      · exact absurd own notOwn
      · exact ⟨member, notOwn⟩
  · intro x member isOwn
    rw [winner_eq]
    rcases mem_tree.mp member with rfl | ⟨old, otherBlock⟩
    · exact if_pos rfl
    · rw [if_neg (otherBlock isOwn), overlay.own_wins old isOwn]
  · intro x
    have hidden : x ∈ (vt.vacated m.block m.parent).dirtyInvisibleMoves ↔ _ :=
      overlay.mem_vacated_hidden
    refine hidden.trans (and_congr_right fun member => ?_)
    rw [winner_eq]
    by_cases same : x.block = m.block
    · have differs : m ≠ x := by
        rintro rfl
        exact (overlay.mem_log.mp member).2 own
      simp [same, differs]
    · simp [same]
  · intro x
    rw [mem_tree, originals]
    change x ∈ insert m (vt.vacated m.block m.parent).originalInvisibleMoves ↔ _
    rw [Finset.mem_insert, overlay.mem_vacated_originalHidden,
      overlay.mem_vacated_tree]
    constructor
    · rintro (rfl | ⟨member, loses⟩)
      · exact ⟨Or.inl rfl, overlay.original_ne_own own _⟩
      · exact ⟨Or.inr member, loses⟩
    · rintro ⟨rfl | member, loses⟩
      · exact Or.inl rfl
      · exact Or.inr ⟨member, loses⟩
  · intro b x wins notOwn
    rw [winner_eq] at wins
    rw [originals]
    split_ifs at wins with same
    · exact absurd (Option.some.inj wins ▸ own) notOwn
    · exact overlay.winner_original wins notOwn
  · intro b none_wins
    rw [winner_eq] at none_wins
    rw [originals]
    split_ifs at none_wins
    exact overlay.original_won none_wins
  · intro b x wins
    rw [winner_eq] at wins
    rw [parents_eq]
    split_ifs at wins ⊢ with same
    · rw [Option.some.inj wins]
    · exact overlay.parents_of_winner wins
  · intro b none_wins
    rw [winner_eq] at none_wins
    rw [parents_eq]
    split_ifs at none_wins ⊢ with same
    exact overlay.parents_of_none none_wins
  · intro x member
    rcases mem_tree.mp member with rfl | ⟨old, -⟩
    · exact proper
    · exact overlay.place x old

/-- Discarding the own move of a block that has no original. -/
theorem discard (overlay : Overlay K state vt) (own : m.IsOwn)
    (winner : vt.dirtyWinners m.block = some m)
    (isNew : vt.originalWinners m.block = none)
    (isTrash : m.parent = trashNodeID) : Overlay K state (vt.discard m) := by
  have present := (overlay.winner_mem winner).1
  have mem_tree : ∀ {x}, x ∈ (vt.discard m).tree ↔ x ∈ vt.tree ∧ x ≠ m := by
    intro x
    refine KeyedList.mem_delete.trans (and_congr_right fun member => ?_)
    exact not_congr ⟨overlay.sound.index.sorted.key_injective member present,
      congrArg _⟩
  have winner_eq : ∀ {b}, (vt.discard m).dirtyWinners b =
      if b = m.block then none else vt.dirtyWinners b :=
    Function.update_apply ..
  refine ⟨overlay.base, overlay.sound.discard winner, overlay.originals, ?_, ?_, ?_, ?_, ?_,
    ?_, ?_, ?_, ?_⟩
  · intro x
    rw [mem_tree, overlay.mem_log]
    refine ⟨fun ⟨member, notOwn⟩ => ⟨⟨member, ?_⟩, notOwn⟩,
      fun ⟨⟨member, _⟩, notOwn⟩ => ⟨member, notOwn⟩⟩
    rintro rfl
    exact notOwn own
  · intro x member isOwn
    obtain ⟨old, notM⟩ := mem_tree.mp member
    have wins := overlay.own_wins old isOwn
    rw [winner_eq, if_neg, wins]
    intro same
    rw [same, winner] at wins
    exact notM (Option.some.inj wins).symm
  · intro x
    change x ∈ vt.dirtyInvisibleMoves.erase m ↔ _
    rw [Finset.mem_erase, overlay.hidden_iff, winner_eq]
    constructor
    · rintro ⟨_, member, loses⟩
      refine ⟨member, ?_⟩
      split_ifs
      · simp
      · exact loses
    · rintro ⟨member, loses⟩
      have notM : x ≠ m := by
        rintro rfl
        exact (overlay.mem_log.mp member).2 own
      refine ⟨notM, member, ?_⟩
      split_ifs at loses with same
      · rw [same, winner]
        exact fun equal => notM (Option.some.inj equal).symm
      · exact loses
  · intro x
    change x ∈ vt.originalInvisibleMoves.erase m ↔ _
    rw [Finset.mem_erase, overlay.originalHidden_iff, mem_tree]
    exact ⟨fun ⟨notM, member, loses⟩ => ⟨⟨member, notM⟩, loses⟩,
      fun ⟨⟨member, notM⟩, loses⟩ => ⟨notM, member, loses⟩⟩
  · intro b x wins notOwn
    rw [winner_eq] at wins
    split_ifs at wins
    exact overlay.winner_original wins notOwn
  · intro b none_wins
    rw [winner_eq] at none_wins
    split_ifs at none_wins with same
    · exact same ▸ isNew
    · exact overlay.original_won none_wins
  · intro b x wins
    rw [winner_eq] at wins
    split_ifs at wins
    exact overlay.parents_of_winner wins
  · intro b none_wins
    rw [winner_eq] at none_wins
    split_ifs at none_wins with same
    · exact Or.inr (same ▸ isTrash ▸ overlay.parents_of_winner winner)
    · exact overlay.parents_of_none none_wins
  · exact fun x member => overlay.place x (mem_tree.mp member).1

/-- Putting back the original of the block of an own move under its parent. -/
theorem restored (overlay : Overlay K state vt) (own : m.IsOwn)
    {original : Move} (winner : vt.dirtyWinners m.block = some m)
    (wasWinner : vt.originalWinners m.block = some original)
    (sameParent : original.parent = m.parent)
    (sound : Sound K (vt.restored m original)) :
    Overlay K state (vt.restored m original) := by
  have present := (overlay.winner_mem winner).1
  obtain ⟨originalPresent, sameBlock, notOwn⟩ :=
    overlay.original_present wasWinner
  have mem_delete : ∀ {x}, x ∈ KeyedList.delete Move.parentOrder m.parentOrder
      vt.tree ↔ x ∈ vt.tree ∧ x ≠ m := by
    intro x
    refine KeyedList.mem_delete.trans (and_congr_right fun member => ?_)
    exact not_congr ⟨overlay.sound.index.sorted.key_injective member present,
      congrArg _⟩
  have originalNotM : original ≠ m := by
    rintro rfl
    exact notOwn own
  have mem_tree : ∀ {x}, x ∈ (vt.restored m original).tree ↔
      x ∈ vt.tree ∧ x ≠ m := by
    intro x
    rw [← mem_delete]
    change x ∈ KeyedList.set Move.parentOrder original _ ↔ _
    rw [KeyedList.set_eq_self (overlay.sound.index.delete _).sorted
      (mem_delete.mpr ⟨originalPresent, originalNotM⟩)]
  have winner_eq : ∀ {b}, (vt.restored m original).dirtyWinners b =
      if b = m.block then some original else vt.dirtyWinners b :=
    Function.update_apply ..
  refine ⟨overlay.base, sound, overlay.originals, ?_, ?_, ?_, ?_, ?_, ?_, ?_, ?_, ?_⟩
  · intro x
    rw [mem_tree, overlay.mem_log]
    refine ⟨fun ⟨member, notOwn⟩ => ⟨⟨member, ?_⟩, notOwn⟩,
      fun ⟨⟨member, _⟩, notOwn⟩ => ⟨member, notOwn⟩⟩
    rintro rfl
    exact notOwn own
  · intro x member isOwn
    obtain ⟨old, notM⟩ := mem_tree.mp member
    have wins := overlay.own_wins old isOwn
    rw [winner_eq, if_neg, wins]
    intro same
    rw [same, winner] at wins
    exact notM (Option.some.inj wins).symm
  · intro x
    change x ∈ (vt.dirtyInvisibleMoves.erase m).erase original ↔ _
    rw [Finset.mem_erase, Finset.mem_erase, overlay.hidden_iff, winner_eq]
    constructor
    · rintro ⟨notOriginal, _, member, loses⟩
      refine ⟨member, ?_⟩
      split_ifs
      · exact fun same => notOriginal (Option.some.inj same).symm
      · exact loses
    · rintro ⟨member, loses⟩
      have notM : x ≠ m := by
        rintro rfl
        exact (overlay.mem_log.mp member).2 own
      refine ⟨?_, notM, member, ?_⟩
      · rintro rfl
        rw [if_pos sameBlock] at loses
        exact loses rfl
      · split_ifs at loses with same
        · rw [same, winner]
          exact fun equal => notM (Option.some.inj equal).symm
        · exact loses
  · intro x
    change x ∈ vt.originalInvisibleMoves.erase m ↔ _
    rw [Finset.mem_erase, overlay.originalHidden_iff, mem_tree]
    exact ⟨fun ⟨notM, member, loses⟩ => ⟨⟨member, notM⟩, loses⟩,
      fun ⟨⟨member, notM⟩, loses⟩ => ⟨notM, member, loses⟩⟩
  · intro b x wins isNotOwn
    rw [winner_eq] at wins
    split_ifs at wins with same
    · rw [same, ← wins]
      exact wasWinner
    · exact overlay.winner_original wins isNotOwn
  · intro b none_wins
    rw [winner_eq] at none_wins
    split_ifs at none_wins
    exact overlay.original_won none_wins
  · intro b x wins
    rw [winner_eq] at wins
    split_ifs at wins with same
    · obtain rfl := Option.some.inj wins
      rw [sameParent, same]
      exact overlay.parents_of_winner winner
    · exact overlay.parents_of_winner wins
  · intro b none_wins
    rw [winner_eq] at none_wins
    split_ifs at none_wins
    exact overlay.parents_of_none none_wins
  · exact fun x member => overlay.place x (mem_tree.mp member).1

/-- The places of the original and of the new move are the same. -/
def Redundant (vt : TreeMutation) (m original : Move) : Prop :=
  original.parent = m.parent ∧
    (vt.visibleLeftSibling original vt.originalInvisibleMoves).1 =
      (vt.visibleLeftSibling m vt.dirtyInvisibleMoves).1 ∧
    (vt.visibleLeftSibling original vt.originalInvisibleMoves).2.origin =
      (vt.visibleLeftSibling m vt.dirtyInvisibleMoves).2.origin

/-- What the cleanup leaves behind. -/
inductive Cleaned (vt : TreeMutation) (m : Move) : TreeMutation → Prop where
  | kept (needed : ∀ original, vt.originalWinners m.block = some original →
      ¬ Redundant vt m original)
      (notNew : m.parent = trashNodeID → vt.originalWinners m.block ≠ none) :
      Cleaned vt m vt
  | discarded (isNew : vt.originalWinners m.block = none)
      (isTrash : m.parent = trashNodeID) : Cleaned vt m (vt.discard m)
  | restored {original : Move}
      (wasWinner : vt.originalWinners m.block = some original)
      (redundant : Redundant vt m original) :
      Cleaned vt m (vt.restored m original)

/-- The cleanup of an own move succeeds. -/
theorem cleanup_spec (overlay : Overlay K state vt) (own : m.IsOwn)
    (winner : vt.dirtyWinners m.block = some m) (effect : MoveEffect) :
    ∃ vt' effect', vt.cleanup m effect = .ok (vt', .ok effect') ∧
      Cleaned vt m vt' ∧ Overlay K state vt' := by
  have present := (overlay.winner_mem winner).1
  cases wasWinner : vt.originalWinners m.block with
  | none =>
      by_cases isTrash : m.parent = trashNodeID
      · refine ⟨vt.discard m, .moved, ?_, .discarded wasWinner isTrash,
          overlay.discard own winner wasWinner isTrash⟩
        simp only [TreeMutation.cleanup, wasWinner, if_pos isTrash, pure_eq_ok]
      · refine ⟨vt, effect, ?_, .kept (by simp [wasWinner]) ?_, overlay⟩
        · simp only [TreeMutation.cleanup, wasWinner, if_neg isTrash, pure_eq_ok]
        · exact fun same => absurd same isTrash
  | some original =>
      obtain ⟨originalPresent, named, notOwn⟩ :=
        overlay.original_present wasWinner
      have visible : original ∉ vt.originalInvisibleMoves := by
        rw [overlay.originalHidden_iff, named, wasWinner]
        simp
      have kept : ¬ Redundant vt m original → Cleaned vt m vt := by
        refine fun needed => .kept (fun other wasWinner' => ?_) ?_
        · obtain rfl := Option.some.inj (wasWinner.symm.trans wasWinner')
          exact needed
        · simp [wasWinner]
      by_cases sameParent : original.parent = m.parent
      · by_cases sameLeft :
            (vt.visibleLeftSibling original vt.originalInvisibleMoves).1 =
              (vt.visibleLeftSibling m vt.dirtyInvisibleMoves).1 ∧
            (vt.visibleLeftSibling original vt.originalInvisibleMoves).2.origin =
              (vt.visibleLeftSibling m vt.dirtyInvisibleMoves).2.origin
        · have agree : ∀ y ∈ KeyedList.delete Move.parentOrder m.parentOrder
              vt.tree, y.parentOrder = original.parentOrder → y = original :=
            fun y member => overlay.sound.index.sorted.key_injective
              (KeyedList.mem_delete.mp member).1 originalPresent
          refine ⟨vt.restored m original, .moved, ?_,
            .restored wasWinner ⟨sameParent, sameLeft⟩,
            overlay.restored own winner wasWinner sameParent
              (overlay.sound.restored winner wasWinner agree)⟩
          simp only [TreeMutation.cleanup, wasWinner, if_pos sameParent,
            if_neg visible, if_pos sameLeft,
            restore_eq_ok_iff.mpr ⟨agree, rfl⟩, ok_bind, pure_eq_ok]
        · refine ⟨vt, effect, ?_, kept fun redundant => sameLeft redundant.2,
            overlay⟩
          simp only [TreeMutation.cleanup, wasWinner, if_pos sameParent,
            if_neg visible, if_neg sameLeft, pure_eq_ok]
      · refine ⟨vt, effect, ?_, kept fun redundant => sameParent redundant.1,
          overlay⟩
        simp only [TreeMutation.cleanup, wasWinner, if_neg sameParent,
          pure_eq_ok]

end Overlay

/-- The cleanup leaves a draft when only the new move may be in the trash. -/
theorem Draft.of_cleaned (overlay : Overlay K state vt)
    (cleaned : Overlay.Cleaned vt m vt') (overlay' : Overlay K state vt')
    (winner : vt.dirtyWinners m.block = some m)
    (trashed : ∀ x ∈ vt.tree, x.IsOwn → x.parent = trashNodeID → x ≠ m →
      vt.originalWinners x.block ≠ none) : Draft K state vt' := by
  have present := (overlay.winner_mem winner).1
  refine ⟨overlay', fun x member own isTrash => ?_⟩
  cases cleaned with
  | kept needed notNew =>
      by_cases isM : x = m
      · rw [isM]
        exact notNew (isM ▸ isTrash)
      · exact trashed x member own isTrash isM
  | discarded isNew inTrash =>
      obtain ⟨old, place⟩ := KeyedList.mem_delete.mp member
      exact trashed x old own isTrash fun same => place (congrArg _ same)
  | restored wasWinner redundant =>
      rcases KeyedList.mem_set_subset member with rfl | old
      · exact absurd own (overlay.original_present wasWinner).2.2
      · obtain ⟨old, place⟩ := KeyedList.mem_delete.mp old
        exact trashed x old own isTrash fun same => place (congrArg _ same)

/-- Where a placement puts the new move, and what it leaves behind. -/
structure Placed (K : Fracdex) (vt : TreeMutation) (block parent : String)
    (pos m : Move) (vt' : TreeMutation) : Prop where
  named : m.block = block
  under : m.parent = parent
  own : m.IsOwn
  siblings_eq : ∃ before after,
    siblings (vt.vacated block parent).tree parent = before ++ after ∧
      (pos = Move.pivot parent "" ∧ before = [] ∨
        ∃ front, before = front ++ [pos]) ∧
      siblings ((vt.vacated block parent).placed m).tree parent =
        before ++ m :: after
  others : ∀ other, other ≠ parent →
    siblings ((vt.vacated block parent).placed m).tree other =
      siblings (vt.vacated block parent).tree other
  cleaned : Overlay.Cleaned ((vt.vacated block parent).placed m) m vt'

/-- A placeable call with a proper place succeeds on a draft. -/
theorem Draft.placeMove_spec {pos : Move} (draft : Draft K state vt)
    (placeable : vt.Placeable block parent left pos)
    (proper : ProperPlace block parent)
    (notIdle : ¬ ((vt.dirtyWinners block).map Move.parent = some trashNodeID ∧
      parent = trashNodeID)) :
    ∃ m vt' effect,
      vt.placeMove K block parent left pos = .ok (vt', .ok effect) ∧
      ((vt.vacated block parent).placed m).cleanup m
          (if vt.dirtyWinners block = none then .created else .moved) =
        .ok (vt', .ok effect) ∧
      Placed K vt block parent pos m vt' ∧
      Overlay K state ((vt.vacated block parent).placed m) ∧
      Draft K state vt' := by
  obtain ⟨m, before, after, named, under, zero, split, above, below, place,
    sound, unfolded⟩ :=
      draft.sound.placeMove_spec placeable proper.not_selfMove notIdle
  subst under
  have own : m.IsOwn := congrArg OpID.origin zero
  have free := parentOrder_free split above below
  have overlay := draft.toOverlay.placed named rfl own proper free sound
  have winner : ((vt.vacated block m.parent).placed m).dirtyWinners m.block =
      some m := Function.update_self ..
  obtain ⟨vt', effect, result, cleaned, overlay'⟩ :=
    overlay.cleanup_spec own winner
      (if vt.dirtyWinners block = none then .created else .moved)
  have grouped : ∀ label,
      siblings ((vt.vacated block m.parent).placed m).tree label =
        if label = m.parent then before ++ m :: after
        else siblings (vt.vacated block m.parent).tree label :=
    KeyedList.ofGroup_set m (draft.sound.vacated proper.not_selfMove
        placeable.notAbove).index.sorted split above below
  refine ⟨m, vt', effect, unfolded.trans result, result,
    ⟨named, rfl, own, ⟨before, after, split, place, ?_⟩, ?_, cleaned⟩, overlay,
    Draft.of_cleaned overlay cleaned overlay' winner ?_⟩
  · rw [grouped, if_pos rfl]
  · intro other differs
    rw [grouped, if_neg differs]
  · intro x member isOwn isTrash notM
    rcases KeyedList.mem_set_subset member with rfl | old
    · exact absurd rfl notM
    · have originals : ((vt.vacated block m.parent).placed m).originalWinners =
          vt.originalWinners := retire_originalWinners _
      rw [originals]
      exact draft.trashed x (mem_of_mem_retire old) isOwn isTrash

/-- A proper move is placed and the draft stays one. -/
theorem Draft.placeMove {pos : Move} (draft : Draft K state vt)
    (placeable : vt.Placeable block parent left pos)
    (proper : ProperPlace block parent) :
    ∃ vt' effect, vt.placeMove K block parent left pos = .ok (vt', .ok effect) ∧
      Draft K state vt' := by
  by_cases idle : (vt.dirtyWinners block).map Move.parent = some trashNodeID ∧
      parent = trashNodeID
  · exact ⟨vt, .none, by rw [TreeMutation.placeMove, if_pos idle, pure_eq_ok],
      draft⟩
  · obtain ⟨_, vt', effect, result, -, -, -, draft'⟩ :=
      draft.placeMove_spec placeable proper idle
    exact ⟨vt', effect, result, draft'⟩

/-- The call does not move the trash, nor a block under itself. -/
structure ProperCall (call : Call) : Prop where
  ne_trash : call.block ≠ trashNodeID
  ne_parent : call.block ≠ call.parent

instance (call : Call) : Decidable (ProperCall call) :=
  decidable_of_iff
    (call.block ≠ trashNodeID ∧ call.block ≠ call.parent)
    ⟨fun both => ⟨both.1, both.2⟩, fun proper => ⟨proper.1, proper.2⟩⟩

/-- What a proper call returns is a draft. -/
theorem Draft.move {call : Call} (draft : Draft K state vt)
    (proper : ProperCall call) {result : Except String MoveEffect}
    (done : Converges
      (fun fuel => vt.move K fuel call.block call.parent call.left)
      (.ok (vt', result))) : Draft K state vt' := by
  rcases move_cases draft.sound.acyclic done with
    ⟨rfl, -⟩ | ⟨pos, placeable, placed⟩
  · exact draft
  · obtain ⟨next, effect, succeeded, draft'⟩ := draft.placeMove placeable
      ⟨placeable.block_ne_empty, proper.ne_trash, proper.ne_parent⟩
    obtain ⟨rfl, -⟩ := Prod.mk.inj (Except.ok.inj (placed.symm.trans succeeded))
    exact draft'

/-! ### What a call reports -/

/-- The effect depends on whether the block was there before the mutation. -/
theorem cleanup_effect {effect reported : MoveEffect}
    (cleaned : vt.cleanup m effect = .ok (vt', .ok reported)) :
    vt.originalWinners m.block = none ∧
        reported = (if m.parent = trashNodeID then .moved else effect) ∨
      vt.originalWinners m.block ≠ none ∧
        (reported = .moved ∨ reported = effect) := by
  rw [TreeMutation.cleanup] at cleaned
  cases wasWinner : vt.originalWinners m.block with
  | none =>
      simp only [wasWinner] at cleaned
      refine Or.inl ⟨rfl, ?_⟩
      split_ifs at cleaned ⊢
      · exact (Except.ok.inj (Prod.mk.inj (Except.ok.inj cleaned)).2).symm
      · exact (Except.ok.inj (Prod.mk.inj (Except.ok.inj cleaned)).2).symm
  | some original =>
      simp only [wasWinner] at cleaned
      refine Or.inr ⟨by simp, ?_⟩
      split_ifs at cleaned
      · simp [panicWith] at cleaned
      · obtain ⟨restored, -, returned⟩ := bind_eq_ok.mp cleaned
        exact Or.inl
          (Except.ok.inj (Prod.mk.inj (Except.ok.inj returned)).2).symm
      · exact Or.inr
          (Except.ok.inj (Prod.mk.inj (Except.ok.inj cleaned)).2).symm
      · exact Or.inr
          (Except.ok.inj (Prod.mk.inj (Except.ok.inj cleaned)).2).symm

/-- The winners after the cleanup: only that of the moved block may differ. -/
theorem Overlay.Cleaned.dirtyWinners_eq (cleaned : Overlay.Cleaned vt m vt')
    (winner : vt.dirtyWinners m.block = some m) :
    (∀ b, b ≠ m.block → vt'.dirtyWinners b = vt.dirtyWinners b) ∧
      (vt'.dirtyWinners m.block = none ↔
        vt.originalWinners m.block = none ∧ m.parent = trashNodeID) := by
  cases cleaned with
  | kept needed notNew =>
      refine ⟨fun _ _ => rfl, ?_⟩
      rw [winner]
      simpa using fun isNew isTrash => notNew isTrash isNew
  | discarded isNew isTrash =>
      refine ⟨fun b differs => Function.update_of_ne differs _ _, ?_⟩
      simp [TreeMutation.discard, isNew, isTrash]
  | restored wasWinner redundant =>
      refine ⟨fun b differs => Function.update_of_ne differs _ _, ?_⟩
      simp [TreeMutation.restored, wasWinner]

/-- What a successful call did to the winners, and what it reports. -/
structure Reports (vt : TreeMutation) (block parent : String)
    (vt' : TreeMutation) (effect : MoveEffect) : Prop where
  originals : vt'.originalWinners = vt.originalWinners
  others : ∀ b, b ≠ block → vt'.dirtyWinners b = vt.dirtyWinners b
  deleted : parent = trashNodeID →
    (effect = .none ∧ (vt.dirtyWinners block).map Move.parent =
        some trashNodeID ∧ vt' = vt) ∨
      effect = .moved ∧ (vt'.dirtyWinners block = none ↔
        vt.originalWinners block = none)
  moved : parent ≠ trashNodeID → vt'.dirtyWinners block ≠ none ∧
    effect = if vt.dirtyWinners block = none then .created else .moved

/-- A call reports what it did to the draft. -/
theorem Draft.reports {call : Call} (draft : Draft K state vt)
    (proper : ProperCall call) {effect : MoveEffect}
    (done : Converges
      (fun fuel => vt.move K fuel call.block call.parent call.left)
      (.ok (vt', .ok effect))) :
    Reports vt call.block call.parent vt' effect := by
  rcases move_cases draft.sound.acyclic done with
    ⟨-, err, isError⟩ | ⟨pos, placeable, placed⟩
  · cases isError
  have properPlace : ProperPlace call.block call.parent :=
    ⟨placeable.block_ne_empty, proper.ne_trash, proper.ne_parent⟩
  by_cases idle : (vt.dirtyWinners call.block).map Move.parent =
      some trashNodeID ∧ call.parent = trashNodeID
  · rw [TreeMutation.placeMove, if_pos idle] at placed
    obtain ⟨rfl, isNone⟩ := Prod.mk.inj (Except.ok.inj placed)
    refine ⟨rfl, fun _ _ => rfl, fun _ => Or.inl ⟨?_, idle.1, rfl⟩,
      fun notTrash => absurd idle.2 notTrash⟩
    exact (Except.ok.inj isNone).symm
  · obtain ⟨m, next, effect', result, cleaned, isPlaced, -, -⟩ :=
      draft.placeMove_spec placeable properPlace idle
    obtain ⟨rfl, same⟩ := Prod.mk.inj (Except.ok.inj (placed.symm.trans result))
    obtain rfl := Except.ok.inj same
    have named := isPlaced.named
    have under := isPlaced.under
    have winner : ((vt.vacated call.block call.parent).placed m).dirtyWinners
        m.block = some m := Function.update_self ..
    have originals : ((vt.vacated call.block call.parent).placed
        m).originalWinners = vt.originalWinners := retire_originalWinners _
    obtain ⟨others, gone⟩ := isPlaced.cleaned.dirtyWinners_eq winner
    have reported := cleanup_effect cleaned
    rw [originals, named, under] at gone reported
    refine ⟨?_, fun b differs => ?_, fun isTrash => Or.inr ⟨?_, ?_⟩,
      fun notTrash => ⟨?_, ?_⟩⟩
    · exact (draft.sound.placeMove_frame placeable properPlace.not_selfMove
        placed).1
    · rw [others b (named ▸ differs)]
      have unchanged : (vt.vacated call.block call.parent).dirtyWinners =
          vt.dirtyWinners := retire_dirtyWinners _
      rw [← unchanged]
      exact Function.update_of_ne (named ▸ differs) _ _
    · rcases reported with ⟨isNew, reported⟩ | ⟨wasThere, reported⟩
      · rwa [if_pos isTrash] at reported
      · have present : vt.dirtyWinners call.block ≠ none :=
          fun gone => wasThere (draft.original_won gone)
        rw [if_neg present] at reported
        exact reported.elim (fun h => h) fun h => h
    · rw [gone]
      exact and_iff_left isTrash
    · exact fun isGone => notTrash (gone.mp isGone).2
    · rcases reported with ⟨isNew, reported⟩ | ⟨wasThere, reported⟩
      · rwa [if_neg notTrash] at reported
      · have present : vt.dirtyWinners call.block ≠ none :=
          fun gone => wasThere (draft.original_won gone)
        rw [if_neg present] at reported ⊢
        exact reported.elim (fun h => h) fun h => h

end Step

section Edit

variable {K : Fracdex} {state : TreeCRDT} {vt : TreeMutation}
    {calls : List Call}

/-- Proper calls turn a proper state into a draft of it. -/
theorem ProperState.draft_of_edit (proper : ProperState K state)
    (properCalls : ∀ call ∈ calls, ProperCall call)
    (edited : Converges (fun fuel => edit K fuel state calls) (.ok vt)) :
    Draft K state vt := by
  obtain ⟨outcome, -, reached, holds⟩ := runMoves_invariant
    (fun vt (inv : Draft K state vt) => inv.sound.acyclic)
    (fun vt vt' call result member inv done =>
      inv.move (properCalls call member) done) proper.draft
  have mutated := mutate_converges proper.valid proper.noSelfMove
  exact holds vt ((edit_converges mutated reached).unique edited)

end Edit

end Mintter.Docmodel
