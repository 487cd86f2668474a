import Mintter.Docmodel.Representation

/-!
# The place a call asks for

A call asks for a parent and a left sibling.  `PutWhereAsked` says that the
block stands there among the visible children and that the other blocks keep
their places.  The new move always does.  But a move that the cleanup judges
redundant is undone by showing the original move again, and the original may
have gained a visible left sibling in the meantime: `Intervened` is exactly
that situation.
-/

namespace Mintter.Docmodel

open Mintter.Foundation

namespace TreeMutation

/-- The block stands right after `left`, or first when `left` is empty. -/
def StandsAfter (children : List Move) (block left : String) : Prop :=
  ∃ front m back, children = front ++ m :: back ∧ m.block = block ∧
    (left = "" ∧ front = [] ∨
      left ≠ "" ∧ ∃ x, front.getLast? = some x ∧ x.block = left)

/-- The call did what it was asked to do and nothing else. -/
structure PutWhereAsked (vt vt' : TreeMutation) (block parent left : String) :
    Prop where
  stands : StandsAfter (vt'.visibleChildren parent) block left
  others : ∀ other,
    ((vt'.visibleChildren other).filter fun x => x.block ≠ block) =
      (vt.visibleChildren other).filter fun x => x.block ≠ block

/-- The move of the left sibling that a call names. -/
def leftWinner (vt : TreeMutation) (left : String) : Option Move :=
  if left = "" then none else vt.dirtyWinners left

/-- The visible children of a parent before a move, without those of its block. -/
def othersBefore (vt : TreeMutation) (x : Move) : List Move :=
  (vt.visibleChildren x.parent).filter fun y =>
    y.block ≠ x.block ∧ y.fracdex < x.fracdex

/--
The block asks for the left sibling that it has in the original tree, where
something else stands between the two by now.
-/
def Intervened (vt : TreeMutation) (block parent left : String) : Prop :=
  ∃ original, vt.originalWinners block = some original ∧
    original.parent = parent ∧
    (vt.visibleLeftSibling original vt.originalInvisibleMoves).1 =
      (leftOf (vt.leftWinner left)).1 ∧
    (vt.visibleLeftSibling original vt.originalInvisibleMoves).2.origin =
      (leftOf (vt.leftWinner left)).2.origin ∧
    (vt.othersBefore original).getLast? ≠ vt.leftWinner left

/-! ## Visible children -/

section Children

variable {K : Fracdex} {vt vt' : TreeMutation} {block parent left other : String}
    {m original x : Move} {invisible : Finset Move}

theorem Kept.index (kept : Kept K vt) : TreeIndex K vt.tree := kept.sound.index

/-- The children that are asked for are the visible ones. -/
theorem Kept.children_eq (kept : Kept K vt) (parent : String) :
    vt.visibleChildren parent = vt.visibleUnder parent :=
  visibleChildren_eq kept.index parent

theorem Kept.sorted (kept : Kept K vt) (parent : String) :
    KeyedList.Sorted Move.fracdex (vt.visibleUnder parent) :=
  (kept.index.keyed parent).sorted.filter _

/-- The visible children are the winners under the parent. -/
theorem Kept.mem_visibleUnder (kept : Kept K vt) :
    x ∈ vt.visibleUnder parent ↔
      vt.dirtyWinners x.block = some x ∧ x.parent = parent := by
  rw [TreeMutation.mem_visibleUnder, ← kept.shown_iff]
  constructor
  · exact fun child => ⟨⟨child.1, child.2.2⟩, child.2.1⟩
  · exact fun child => ⟨child.1.1, child.2, child.1.2⟩

/-- Winners that stay keep their places among the visible children. -/
theorem Kept.others_eq (kept : Kept K vt) (kept' : Kept K vt')
    (same : ∀ b, b ≠ block → vt'.dirtyWinners b = vt.dirtyWinners b)
    (other : String) :
    ((vt'.visibleChildren other).filter fun x => x.block ≠ block) =
      (vt.visibleChildren other).filter fun x => x.block ≠ block := by
  rw [kept.children_eq, kept'.children_eq]
  refine ((kept'.sorted other).filter _).eq_of_mem_iff
    ((kept.sorted other).filter _) fun x => ?_
  rw [List.mem_filter, List.mem_filter, kept.mem_visibleUnder,
    kept'.mem_visibleUnder]
  refine and_congr_left fun differs => ?_
  rw [same x.block (by simpa using differs)]

/-- Where the other blocks have the same winners, the same ones stand before a move. -/
theorem Kept.othersBefore_eq (kept : Kept K vt) (kept' : Kept K vt')
    (same : ∀ b, b ≠ x.block → vt'.dirtyWinners b = vt.dirtyWinners b) :
    vt'.othersBefore x = vt.othersBefore x := by
  have others := kept.others_eq kept' same x.parent
  have shape : ∀ children : List Move,
      (children.filter fun y => y.block ≠ x.block ∧ y.fracdex < x.fracdex) =
        (children.filter fun y => y.block ≠ x.block).filter
          fun y => y.fracdex < x.fracdex := by
    intro children
    rw [List.filter_filter]
    refine List.filter_congr fun y _ => ?_
    rw [← Bool.decide_and, decide_eq_decide, and_comm]
  rw [othersBefore, othersBefore, shape, shape, others]

/-- The visible move of a block splits the children of its parent. -/
theorem Kept.children_split (kept : Kept K vt)
    (wins : vt.dirtyWinners block = some x) :
    ∃ back, vt.visibleChildren x.parent = vt.othersBefore x ++ x :: back := by
  have named := (kept.sound.winner_mem wins).2
  have member : x ∈ vt.visibleUnder x.parent :=
    kept.mem_visibleUnder.mpr ⟨named ▸ wins, rfl⟩
  obtain ⟨front, back, split⟩ := List.append_of_mem member
  have sorted := kept.sorted x.parent
  rw [split] at sorted
  obtain ⟨_, sortedBack, across⟩ := List.pairwise_append.mp sorted
  refine ⟨back, ?_⟩
  rw [othersBefore, kept.children_eq, split, List.filter_append]
  have inUnder : ∀ y ∈ front, vt.dirtyWinners y.block = some y := by
    intro y isFront
    refine (kept.mem_visibleUnder.mp (?_ : y ∈ vt.visibleUnder x.parent)).1
    rw [split]
    exact List.mem_append_left _ isFront
  have keepFront : (front.filter fun y =>
      y.block ≠ x.block ∧ y.fracdex < x.fracdex) = front := by
    refine List.filter_eq_self.mpr fun y isFront => ?_
    have less := across y isFront x List.mem_cons_self
    have differs : y.block ≠ x.block := by
      intro same
      have shape := inUnder y isFront
      rw [same, named, wins] at shape
      exact less.ne (congrArg _ (Option.some.inj shape)).symm
    exact decide_eq_true ⟨differs, less⟩
  have dropBack : ((x :: back).filter fun y =>
      y.block ≠ x.block ∧ y.fracdex < x.fracdex) = [] := by
    refine List.filter_eq_nil_iff.mpr fun y member => ?_
    rcases List.mem_cons.mp member with rfl | isBack
    · simp
    · have less := (List.pairwise_cons.mp sortedBack).1 y isBack
      exact fun holds => less.not_gt (of_decide_eq_true holds).2
  rw [keepFront, dropBack, List.append_nil]

/-- The place of a block among the visible children, read from its winner. -/
theorem Kept.standsAfter_iff (kept : Kept K vt)
    (wins : vt.dirtyWinners block = some x) :
    StandsAfter (vt.visibleChildren x.parent) block left ↔
      left = "" ∧ vt.othersBefore x = [] ∨
        left ≠ "" ∧ ∃ y, (vt.othersBefore x).getLast? = some y ∧ y.block = left := by
  have named := (kept.sound.winner_mem wins).2
  obtain ⟨back, split⟩ := kept.children_split wins
  constructor
  · rintro ⟨front, m, back', split', isBlock, place⟩
    have nodup := (kept.sorted x.parent).nodup
    rw [← kept.children_eq, split] at nodup
    obtain ⟨-, nodupBack, apart⟩ := List.nodup_append.mp nodup
    have member : m ∈ vt.visibleUnder x.parent := by
      rw [← kept.children_eq, split']
      simp
    have isX : m = x := by
      have shape := (kept.mem_visibleUnder.mp member).1
      rw [isBlock, wins] at shape
      exact (Option.some.inj shape).symm
    subst isX
    have same := (List.append_cons_inj_of_notMem
      (fun isFront => apart m isFront m List.mem_cons_self rfl)
      (List.nodup_cons.mp nodupBack).1).mp (split.symm.trans split')
    rw [same.1]
    exact place
  · intro place
    exact ⟨vt.othersBefore x, x, back, split, named, place⟩

/-- A front that ends with the left neighbour is empty only at the start. -/
theorem standing_of_last {front : List Move}
    (leftAt : left ≠ "" → ∃ y, vt.dirtyWinners left = some y ∧ y.block = left)
    (last : front.getLast? = vt.leftWinner left) :
    left = "" ∧ front = [] ∨
      left ≠ "" ∧ ∃ y, front.getLast? = some y ∧ y.block = left := by
  rw [leftWinner] at last
  by_cases atStart : left = ""
  · rw [if_pos atStart] at last
    exact Or.inl ⟨atStart, List.getLast?_eq_none_iff.mp last⟩
  · rw [if_neg atStart] at last
    obtain ⟨leftPos, wins, named⟩ := leftAt atStart
    exact Or.inr ⟨atStart, leftPos, last.trans wins, named⟩

/-- Standing after the left sibling, read from the last move in front. -/
theorem standing_iff {front : List Move}
    (known : ∀ y ∈ front, vt.dirtyWinners y.block = some y)
    (leftAt : left ≠ "" → ∃ y, vt.dirtyWinners left = some y ∧ y.block = left) :
    (left = "" ∧ front = [] ∨
        left ≠ "" ∧ ∃ y, front.getLast? = some y ∧ y.block = left) ↔
      front.getLast? = vt.leftWinner left := by
  refine ⟨?_, standing_of_last leftAt⟩
  rw [leftWinner]
  rintro (⟨atStart, rfl⟩ | ⟨notStart, y, last, isLeft⟩)
  · rw [if_pos atStart, List.getLast?_nil]
  · rw [if_neg notStart, last, ← isLeft, known y (List.mem_of_getLast? last)]

end Children

/-! ## A successful call -/

section Call

variable {K : Fracdex} {vt vt' : TreeMutation} {fuel : Nat}
    {block parent left : String} {pos m original x : Move}

/-- The vacation only removes an own winner of the block. -/
theorem Kept.mem_vacated (kept : Kept K vt) (parent : String)
    (member : x ∈ vt.tree) :
    x ∈ (vt.vacated block parent).tree ∨
      vt.dirtyWinners block = some x ∧ x.IsOwn := by
  rw [TreeMutation.vacated]
  cases previous : vt.dirtyWinners block with
  | none => exact Or.inl member
  | some prev =>
      simp only [retire]
      split_ifs with own
      · by_cases same : x = prev
        · exact Or.inr ⟨congrArg some same.symm, same ▸ own⟩
        · refine Or.inl (KeyedList.mem_delete.mpr ⟨member, fun place => same ?_⟩)
          exact kept.index.sorted.key_injective member
            (kept.sound.winner_mem previous).1 place
      · exact Or.inl member

theorem mem_of_mem_retire_hidden {prev : Option Move}
    (hidden : x ∈ (vt.retire prev).originalInvisibleMoves) :
    x ∈ vt.originalInvisibleMoves := by
  cases prev with
  | none => exact hidden
  | some prev =>
      simp only [retire] at hidden
      split_ifs at hidden
      · exact (Finset.mem_erase.mp hidden).2
      · exact hidden

/-- The winner that a passed check found for the left sibling. -/
theorem LeftAt.winner (kept : Kept K vt) (leftAt : vt.LeftAt parent left pos)
    (notStart : left ≠ "") :
    vt.dirtyWinners left = some pos ∧ pos.block = left := by
  rcases leftAt with ⟨atStart, -⟩ | ⟨-, winner, -⟩
  · exact absurd atStart notStart
  · exact ⟨winner, (kept.sound.winner_mem winner).2⟩

/-- The new move has its left sibling right in front of it. -/
theorem landed_left (landed : Placed K vt block parent pos m vt')
    (keptPlaced : Kept K ((vt.vacated block parent).placed m))
    (kept : Kept K vt) (differs : block ≠ left)
    (leftAt : vt.LeftAt parent left pos) :
    ∃ front back,
      ((vt.vacated block parent).placed m).visibleChildren parent =
        front ++ m :: back ∧
      front.getLast? = vt.leftWinner left ∧
      ((vt.vacated block parent).placed m).visibleLeftSibling m
          ((vt.vacated block parent).placed m).dirtyInvisibleMoves =
        leftOf (vt.leftWinner left) := by
  obtain ⟨before, after, -, place, split⟩ := landed.siblings_eq
  have winner : ((vt.vacated block parent).placed m).dirtyWinners m.block =
      some m := Function.update_self ..
  have shown := keptPlaced.winner_shown winner
  have last : (before.filter fun x =>
      x ∉ ((vt.vacated block parent).placed m).dirtyInvisibleMoves).getLast? =
        vt.leftWinner left := by
    rw [leftWinner]
    rcases place with ⟨isPivot, rfl⟩ | ⟨front, rfl⟩
    · split_ifs with atStart
      · rfl
      · obtain ⟨winner, named⟩ := leftAt.winner kept atStart
        have present := (kept.sound.winner_mem winner).1
        rw [isPivot] at present
        exact absurd rfl (K.ne_empty (kept.index.isKey _ present))
    · split_ifs with atStart
      · rcases leftAt with ⟨-, isPivot⟩ | ⟨notStart, -⟩
        · have present : pos ∈ siblings
              ((vt.vacated block parent).placed m).tree parent := by
            rw [split]
            simp
          rw [isPivot] at present
          exact absurd rfl
            (K.ne_empty (keptPlaced.index.isKey _ (mem_siblings.mp present).1))
        · exact absurd atStart notStart
      · obtain ⟨winner, named⟩ := leftAt.winner kept atStart
        have stays : ((vt.vacated block parent).placed m).dirtyWinners left =
            some pos := by
          rw [placed_dirtyWinners, landed.named, if_neg differs.symm,
            vacated_dirtyWinners, winner]
        have visible := keptPlaced.winner_shown stays
        rw [List.filter_append, List.filter_cons_of_pos (by simpa using visible),
          List.filter_nil, List.getLast?_concat, winner]
  refine ⟨before.filter fun x =>
      x ∉ ((vt.vacated block parent).placed m).dirtyInvisibleMoves,
    after.filter fun x =>
      x ∉ ((vt.vacated block parent).placed m).dirtyInvisibleMoves,
    ?_, last, ?_⟩
  · rw [keptPlaced.children_eq, visibleUnder, split, List.filter_append,
      List.filter_cons_of_pos (by simpa using shown)]
  · rw [visibleLeftSibling_eq keptPlaced.index (landed.under ▸ split), last]

/-- The new move changes nothing that the original tree shows. -/
theorem landed_original (landed : Placed K vt block parent pos m vt')
    (keptPlaced : Kept K ((vt.vacated block parent).placed m))
    (kept : Kept K vt)
    (free : ∀ x ∈ (vt.vacated block parent).tree,
      x.parentOrder ≠ m.parentOrder)
    (wasWinner : vt.originalWinners block = some original) :
    ((vt.vacated block parent).placed m).visibleLeftSibling original
        ((vt.vacated block parent).placed m).originalInvisibleMoves =
      vt.visibleLeftSibling original vt.originalInvisibleMoves := by
  have named := (kept.sound.original_eq wasWinner).1
  have notOriginal : ∀ {x}, x ∈ vt.tree → x.IsOwn → x.block = block →
      x ≠ original → x ∈ vt.originalInvisibleMoves := by
    intro x member own same differs
    refine (kept.own_hidden x member own).resolve_right fun wins => differs ?_
    rw [same, wasWinner] at wins
    exact (Option.some.inj wins).symm
  have shown_iff : ∀ x, x ≠ original →
      (x ∈ ((vt.vacated block parent).placed m).tree ∧
        x ∉ ((vt.vacated block parent).placed m).originalInvisibleMoves ↔
      x ∈ vt.tree ∧ x ∉ vt.originalInvisibleMoves) := by
    intro x differs
    have inTree : x ∈ ((vt.vacated block parent).placed m).tree ↔
        x = m ∨ x ∈ (vt.vacated block parent).tree :=
      KeyedList.mem_set_of_fresh free
    have hidden_iff :
        x ∈ ((vt.vacated block parent).placed m).originalInvisibleMoves ↔
          x = m ∨ x ∈ (vt.vacated block parent).originalInvisibleMoves :=
      Finset.mem_insert
    rw [inTree, hidden_iff]
    constructor
    · rintro ⟨rfl | member, visible⟩
      · exact absurd (Or.inl rfl) visible
      · refine ⟨mem_of_mem_retire member, fun hidden => visible (Or.inr ?_)⟩
        exact retire_originalHidden hidden member
    · rintro ⟨member, visible⟩
      have stays : x ∈ (vt.vacated block parent).tree := by
        refine (kept.mem_vacated parent member).resolve_right ?_
        rintro ⟨wins, own⟩
        have same := (kept.sound.winner_mem wins).2
        exact visible (notOriginal member own same differs)
      refine ⟨Or.inr stays, ?_⟩
      rintro (rfl | hidden)
      · exact visible (notOriginal member landed.own landed.named differs)
      · exact visible (mem_of_mem_retire_hidden hidden)
  rw [visibleLeftSibling_upTo keptPlaced.index,
    visibleLeftSibling_upTo kept.index]
  congr 2
  refine ((keptPlaced.index.keyed original.parent).sorted.filter _).eq_of_mem_iff
    ((kept.index.keyed original.parent).sorted.filter _) fun x => ?_
  rw [List.mem_filter, List.mem_filter, mem_siblings, mem_siblings,
    decide_eq_true_iff, decide_eq_true_iff]
  constructor
  · rintro ⟨⟨member, under⟩, upTo, differs, visible⟩
    obtain ⟨member, visible⟩ := (shown_iff x differs).mp ⟨member, visible⟩
    exact ⟨⟨member, under⟩, upTo, differs, visible⟩
  · rintro ⟨⟨member, under⟩, upTo, differs, visible⟩
    obtain ⟨member, visible⟩ := (shown_iff x differs).mpr ⟨member, visible⟩
    exact ⟨⟨member, under⟩, upTo, differs, visible⟩

/-- Undoing a redundant move puts the block where it was asked, or not. -/
theorem landed_stands_iff (landed : Placed K vt block parent pos m vt')
    (keptPlaced : Kept K ((vt.vacated block parent).placed m))
    (kept : Kept K vt) (kept' : Kept K vt')
    (free : ∀ x ∈ (vt.vacated block parent).tree,
      x.parentOrder ≠ m.parentOrder)
    (differs : block ≠ left) (leftAt : vt.LeftAt parent left pos)
    (notTrash : parent ≠ trashNodeID)
    (others : ∀ b, b ≠ block → vt'.dirtyWinners b = vt.dirtyWinners b) :
    StandsAfter (vt'.visibleChildren parent) block left ↔
      ¬ vt.Intervened block parent left := by
  obtain ⟨front, back, split, last, current⟩ :=
    landed_left landed keptPlaced kept differs leftAt
  have originals : ((vt.vacated block parent).placed m).originalWinners =
      vt.originalWinners := retire_originalWinners _
  have leftKnown : left ≠ "" →
      ∃ y, vt.dirtyWinners left = some y ∧ y.block = left :=
    fun notStart => ⟨pos, leftAt.winner kept notStart⟩
  have judged : ∀ original, vt.originalWinners block = some original →
      (Overlay.Redundant ((vt.vacated block parent).placed m) m original ↔
        original.parent = parent ∧
          (vt.visibleLeftSibling original vt.originalInvisibleMoves).1 =
            (leftOf (vt.leftWinner left)).1 ∧
          (vt.visibleLeftSibling original vt.originalInvisibleMoves).2.origin =
            (leftOf (vt.leftWinner left)).2.origin) := by
    intro original wasWinner
    rw [Overlay.Redundant, landed_original landed keptPlaced kept free wasWinner,
      current, landed.under]
  rcases landed.cleaned with ⟨needed, -⟩ | ⟨-, isTrash⟩ | ⟨wasWinner, redundant⟩
  · refine iff_of_true ⟨front, m, back, split, landed.named,
      standing_of_last leftKnown last⟩ ?_
    rintro ⟨original, wasWinner, sameParent, sameLeft, sameOrigin, -⟩
    refine needed original ?_
      ((judged original wasWinner).mpr ⟨sameParent, sameLeft, sameOrigin⟩)
    rw [originals, landed.named, wasWinner]
  · exact absurd (landed.under.symm.trans isTrash) notTrash
  · rename_i original
    rw [originals, landed.named] at wasWinner
    have wins : (((vt.vacated block parent).placed m).restored m original).dirtyWinners
        block = some original := by
      rw [restored_dirtyWinners, if_pos landed.named.symm]
    obtain ⟨rfl, sameLeft, sameOrigin⟩ :=
      (judged original wasWinner).mp redundant
    have named := (kept.sound.original_eq wasWinner).1
    rw [kept'.standsAfter_iff wins,
      kept.othersBefore_eq kept' (named ▸ others), standing_iff ?_ leftKnown]
    · constructor
      · rintro asked ⟨other, wasWinner', -, -, -, differs⟩
        obtain rfl := Option.some.inj (wasWinner.symm.trans wasWinner')
        exact differs asked
      · intro notIntervened
        by_contra differs
        exact notIntervened
          ⟨original, wasWinner, rfl, sameLeft, sameOrigin, differs⟩
    · intro y member
      have child := (List.mem_filter.mp member).1
      rw [kept.children_eq] at child
      exact (kept.mem_visibleUnder.mp child).1

end Call

end TreeMutation

open TreeMutation

/--
After every run of calls, a successful call with another parent than the trash
puts the block where it was asked to, and keeps the other blocks in place, unless
it intervened: the block asks for the left sibling that it has in the original
tree, and another visible block stands between the two by now.
-/
theorem move_puts_where_asked_iff {K : Fracdex} {state : TreeCRDT}
    {vt vt' : TreeMutation} {fuel : Nat} {block parent left : String}
    {effect : MoveEffect} (received : Received K (fun _ => True) state)
    (run : Mutated K state (fun _ _ => True) vt)
    (notTrash : parent ≠ trashNodeID)
    (done : vt.move K fuel block parent left = .ok (vt', .ok effect)) :
    PutWhereAsked vt vt' block parent left ↔
      ¬ vt.Intervened block parent left := by
  have kept := run.kept received.valid.1
  rcases move_eq_ok done with ⟨-, err, rejected⟩ | ⟨pos, checked, placed⟩
  · obtain ⟨checked, isChecked, done⟩ := bind_eq_ok.mp done
    obtain rfl := checkMove_unique rejected isChecked
    simp at done
  · rcases kept.placeMove_spec checked placed with
      ⟨isTrash, -⟩ | ⟨m, landed, free, keptPlaced, kept'⟩
    · exact absurd isTrash notTrash
    · obtain ⟨-, differs, leftAt⟩ := checkMove_eq_ok checked
      have winner : ((vt.vacated block parent).placed m).dirtyWinners m.block =
          some m := Function.update_self ..
      have others : ∀ b, b ≠ block → vt'.dirtyWinners b = vt.dirtyWinners b := by
        intro b other
        rw [(landed.cleaned.dirtyWinners_eq winner).1 b (landed.named ▸ other),
          placed_dirtyWinners, landed.named, if_neg other, vacated_dirtyWinners]
      rw [← landed_stands_iff landed keptPlaced kept kept' free differs leftAt
        notTrash others]
      constructor
      · exact fun asked => asked.stands
      · exact fun stands => ⟨stands, kept.others_eq kept' others⟩

/-- The second block is moved to the front. -/
theorem move_puts_where_asked_iff_twoBlocks :
    ∃ vt vt', Mutated sampleFracdex twoBlocks (fun _ _ => True) vt ∧
      vt.move sampleFracdex 1 "b2" "" "" = .ok (vt', .ok .moved) ∧
      PutWhereAsked vt vt' "b2" "" "" := by
  have run : ∃ vt vt', Mutated sampleFracdex twoBlocks (fun _ _ => True) vt ∧
      vt.move sampleFracdex 1 "b2" "" "" = .ok (vt', .ok .moved) ∧
      ∃ original, vt.originalWinners "b2" = some original ∧
        (vt.visibleLeftSibling original vt.originalInvisibleMoves).1 = "b1" :=
    ⟨_, _, .mutate 1 rfl, rfl, _, rfl, rfl⟩
  obtain ⟨vt, vt', mutated, done, original, wins, isFirst⟩ := run
  refine ⟨vt, vt', mutated, done, (move_puts_where_asked_iff twoBlocks_received
    mutated (by decide) done).mpr ?_⟩
  rintro ⟨other, wins', -, sameLeft, -⟩
  obtain rfl := Option.some.inj (wins.symm.trans wins')
  rw [isFirst] at sameLeft
  simp [leftWinner, leftOf] at sameLeft

/--
A new block is put between the two blocks, and then the second block is moved
after the first one.  The move is undone, and the new block stays in between.
-/
theorem restored_block_misses_place :
    ∃ vt vt', Mutated sampleFracdex twoBlocks (fun _ _ => True) vt ∧
      vt.move sampleFracdex 1 "b2" "" "b1" = .ok (vt', .ok .moved) ∧
      (vt'.visibleChildren "").map Move.block = ["b1", "b3", "b2"] ∧
      ¬ PutWhereAsked vt vt' "b2" "" "b1" := by
  have run : ∃ vt vt', Mutated sampleFracdex twoBlocks (fun _ _ => True) vt ∧
      vt.move sampleFracdex 1 "b2" "" "b1" = .ok (vt', .ok .moved) ∧
      (vt'.visibleChildren "").map Move.block = ["b1", "b3", "b2"] :=
    ⟨_, _, .move 1 ⟨"b3", "", "b1"⟩ (.mutate 1 rfl) trivial rfl, rfl, by decide⟩
  obtain ⟨vt, vt', mutated, done, children⟩ := run
  refine ⟨vt, vt', mutated, done, children, ?_⟩
  rintro ⟨⟨front, m, back, split, isSecond, place⟩, -⟩
  obtain ⟨-, x, last, isFirst⟩ := place.resolve_left (by simp)
  obtain ⟨earlier, rfl⟩ := List.getLast?_eq_some_iff.mp last
  rw [split] at children
  have inside : ["b1", "b2"] <:+: ["b1", "b3", "b2"] := by
    refine ⟨earlier.map Move.block, back.map Move.block, ?_⟩
    simpa [isFirst, isSecond] using children
  exact absurd inside (by decide)

end Mintter.Docmodel
