import Mintter.Docmodel.Drafts

/-!
# Committing a mutation

`commit` walks the visible tree and integrates an operation for every own move
that it meets, then for every own move to the trash.  Each operation is newer
than the whole state, so it is inserted right after the visible left sibling of
its move, and the moves integrated so far stand in the order of the visible
siblings: this is `Progress`, which every step keeps.
-/

namespace Mintter.Docmodel

open Mintter.Foundation
open TreeMutation

namespace TreeMutation

/-- The blocks whose children are shown. -/
inductive Shown (vt : TreeMutation) : String → Prop where
  | root : Shown vt ""
  | child {x : Move} (above : Shown vt x.parent)
      (member : x ∈ vt.visibleUnder x.parent) : Shown vt x.block

end TreeMutation

section Walk

variable {K : Fracdex} {state : TreeCRDT} {vt : TreeMutation} {x y : Move}

namespace Draft

theorem blocksNamed (draft : Draft K state vt) : vt.BlocksNamed :=
  fun x member => (draft.place x member).ne_root

/-- The moves that the depth-first walk visits. -/
def walk (draft : Draft K state vt) : List Move :=
  vt.walk draft.sound.index draft.sound.oneVisible draft.blocksNamed

theorem visible_eq_of_block (draft : Draft K state vt)
    (isVisible : x ∈ vt.visibleUnder x.parent)
    (isVisible' : y ∈ vt.visibleUnder y.parent) (same : x.block = y.block) :
    x = y := by
  obtain ⟨member, -, visible⟩ := mem_visibleUnder.mp isVisible
  obtain ⟨member', -, visible'⟩ := mem_visibleUnder.mp isVisible'
  exact draft.sound.oneVisible x member y member' visible visible' same

/-- The walk visits the visible moves under the blocks that are shown. -/
theorem mem_walk_iff (draft : Draft K state vt) : x ∈ draft.walk ↔
    x ∈ vt.visibleUnder x.parent ∧ vt.Shown x.parent := by
  constructor
  · intro member
    obtain ⟨path, trail⟩ := Forest.exists_trail_of_mem_walk member
    induction path generalizing x with
    | nil =>
        cases trail with
        | root isRoot =>
            have under : x.parent = "" := (mem_visibleUnder.mp isRoot).2.1
            rw [under]
            exact ⟨isRoot, .root⟩
    | cons parent path induction =>
        cases trail with
        | down isKid above =>
            have under : x.parent = parent.block :=
              (mem_visibleUnder.mp isKid).2.1
            obtain ⟨visible, shown⟩ := induction
              (above.mem_walk parent List.mem_cons_self) above
            rw [under]
            exact ⟨isKid, .child shown visible⟩
  · rintro ⟨visible, shown⟩
    have walked : ∀ {label}, vt.Shown label → ∀ {x}, x ∈ vt.visibleUnder label →
        x ∈ draft.walk := by
      intro label shown
      induction shown with
      | root => exact fun member => Forest.mem_walk_of_mem_roots member
      | child _ isChild induction =>
          exact fun member => Forest.mem_walk_of_mem_kids (induction isChild)
            member
    exact walked shown visible

/-- A walk meets no block twice. -/
theorem block_injective_walk (draft : Draft K state vt)
    (member : x ∈ draft.walk) (member' : y ∈ draft.walk) (same : x.block = y.block) : x = y :=
  draft.visible_eq_of_block (draft.mem_walk_iff.mp member).1
    (draft.mem_walk_iff.mp member').1 same

/-- Nothing is shown below the trash. -/
theorem not_shown_trash (draft : Draft K state vt) : ¬ vt.Shown trashNodeID := by
  intro shown
  generalize named : trashNodeID = label at shown
  cases shown with
  | root => exact absurd named (by decide)
  | child above member =>
      exact (draft.place _ (mem_visibleUnder.mp member).1).ne_trash named.symm

theorem mem_tree_of_mem_walk (draft : Draft K state vt)
    (member : x ∈ draft.walk) : x ∈ vt.tree :=
  (mem_visibleUnder.mp (draft.mem_walk_iff.mp member).1).1

/-- An own move is visible, as it is the winner of its block. -/
theorem own_visible (draft : Draft K state vt) (member : x ∈ vt.tree)
    (own : x.IsOwn) : x ∈ vt.visibleUnder x.parent :=
  mem_visibleUnder.mpr ⟨member, rfl,
    (draft.visible_iff member).mpr (draft.own_wins member own)⟩

/-- The visible left sibling of an own move in the list of its siblings. -/
theorem exists_visible_split (draft : Draft K state vt) {m : Move}
    (member : m ∈ vt.tree) (own : m.IsOwn) :
    ∃ left right, vt.visibleUnder m.parent = left ++ m :: right ∧
      vt.visibleLeftSibling m vt.dirtyInvisibleMoves =
        leftOf left.getLast? := by
  obtain ⟨front, back, split⟩ :=
    List.append_of_mem (mem_siblings.mpr ⟨member, rfl⟩)
  have visible : m ∉ vt.dirtyInvisibleMoves :=
    (mem_visibleUnder.mp (draft.own_visible member own)).2.2
  refine ⟨_, back.filter fun x => x ∉ vt.dirtyInvisibleMoves, ?_,
    visibleLeftSibling_eq draft.sound.index split _⟩
  rw [visibleUnder, split, List.filter_append,
    List.filter_cons_of_pos (by simpa using visible)]

end Draft

end Walk

/-! ## Integrating the produced operations -/

/-- The origin and the timestamp of a commit are new to the state. -/
structure NewOrigin (state : TreeCRDT) (origin : String) (ts : Int) :
    Prop where
  named : origin ≠ ""
  fresh : ∀ x ∈ state.log, x.opID.origin ≠ origin
  later : ∀ x ∈ state.log, x.opID.ts < ts

/-- A move of the state being built stands for a visible move of the mutation. -/
def Stands (vt : TreeMutation) (origin : String) (y : Move) : Prop :=
  y.opID.origin = origin ∨ vt.dirtyWinners y.block = some y

instance (vt : TreeMutation) (origin : String) :
    DecidablePred (Stands vt origin) :=
  fun _ => inferInstanceAs (Decidable (_ ∨ _))

/-- The visible moves under a parent that are integrated so far. -/
def doneUnder (vt : TreeMutation) (seen : List Move) (parent : String) :
    List Move :=
  (vt.visibleUnder parent).filter fun v => ¬ v.IsOwn ∨ v ∈ seen

/-- What is done below a parent is what is not the draft's own, or was already sent. -/
theorem mem_doneUnder {vt : TreeMutation} {seen : List Move}
    {parent : String} {x : Move} : x ∈ doneUnder vt seen parent ↔
      x ∈ vt.visibleUnder parent ∧ (¬ x.IsOwn ∨ x ∈ seen) := by
  simp [doneUnder]

/-- The state after the own moves `seen` were integrated as `added`. -/
structure Progress (K : Fracdex) (state : TreeCRDT) (vt : TreeMutation)
    (origin : String) (ts : Int) (seen added : List Move)
    (acc : TreeCRDT × Int) : Prop where
  valid : acc.1.Valid K
  log_eq : acc.1.log = state.log ++ added
  count : acc.2 = added.length
  added_eq : added.map (fun x => (x.block, x.parent)) =
    seen.map fun x => (x.block, x.parent)
  added_opID : ∀ x ∈ added, x.opID.origin = origin ∧ x.opID.ts = ts ∧
    x.opID.idx < acc.2
  order : ∀ parent, parent ≠ trashNodeID →
    ((siblings acc.1.tree parent).filter fun y => Stands vt origin y).map
        Move.block = (doneUnder vt seen parent).map Move.block

section Integration

variable {K : Fracdex} {state : TreeCRDT} {vt : TreeMutation}
    {origin : String} {ts : Int} {seen added : List Move} {m : Move}
    {acc : TreeCRDT × Int}

/-- The visible moves under one parent have different blocks. -/
theorem Draft.nodup_blocks (draft : Draft K state vt) (parent : String) :
    ((vt.visibleUnder parent).map Move.block).Nodup := by
  refine List.Nodup.map_on ?_ ((draft.sound.index.nodup parent).filter _)
  intro x member y member' same
  obtain ⟨_, rfl, _⟩ := mem_visibleUnder.mp member
  obtain ⟨_, under, _⟩ := mem_visibleUnder.mp member'
  exact draft.visible_eq_of_block member (under ▸ member') same

/-- Before anything is sent, the target is the state itself. -/
theorem Progress.start (draft : Draft K state vt)
    (isNew : NewOrigin state origin ts) :
    Progress K state vt origin ts [] [] (state, 0) where
  valid := draft.base.valid
  log_eq := (List.append_nil _).symm
  count := rfl
  added_eq := rfl
  added_opID := by simp
  order := by
    intro parent _
    congr 1
    have sorted := (draft.base.valid.keyed parent).sorted.filter
      fun y => Stands vt origin y
    have sorted' := ((draft.sound.index.keyed parent).sorted.filter
      fun x => x ∉ vt.dirtyInvisibleMoves).filter
        fun v => ¬ v.IsOwn ∨ v ∈ ([] : List Move)
    refine sorted.eq_of_mem_iff sorted' fun y => ?_
    rw [List.mem_filter, mem_siblings, decide_eq_true_eq]
    rw [mem_doneUnder, mem_visibleUnder]
    constructor
    · rintro ⟨⟨inTree, under⟩, stands⟩
      have inLog := draft.base.valid.mem_tree.mp inTree
      obtain ⟨member, notOwn⟩ := draft.mem_log.mp inLog
      have wins := stands.resolve_left (isNew.fresh y inLog)
      exact ⟨⟨member, under, (draft.visible_iff member).mpr wins⟩,
        Or.inl notOwn⟩
    · rintro ⟨⟨member, under, visible⟩, done⟩
      have notOwn : ¬ y.IsOwn := done.resolve_right (by simp)
      have inLog := draft.mem_log.mpr ⟨member, notOwn⟩
      exact ⟨⟨draft.base.valid.mem_tree.mpr inLog, under⟩,
        Or.inr ((draft.visible_iff member).mp visible)⟩

/-- The log has grown by what was added. -/
theorem Progress.mem_log (progress :
    Progress K state vt origin ts seen added acc) {x : Move} :
    x ∈ acc.1.log ↔ x ∈ state.log ∨ x ∈ added := by
  rw [progress.log_eq, List.mem_append]

/-- The next operation is newer than everything integrated so far. -/
theorem Progress.newest (isNew : NewOrigin state origin ts)
    (progress : Progress K state vt origin ts seen added acc) :
    ∀ y ∈ acc.1.log, y.opID < ⟨origin, ts, acc.2⟩ := by
  intro y member
  rw [OpID.lt_iff]
  rcases progress.mem_log.mp member with old | isAdded
  · exact Or.inl (isNew.later y old)
  · obtain ⟨sameOrigin, sameTs, less⟩ := progress.added_opID y isAdded
    exact Or.inr ⟨sameTs, Or.inr ⟨sameOrigin, less⟩⟩

/-- The operation after a visible sibling finds it. -/
theorem Progress.exists_anchor (draft : Draft K state vt)
    (progress : Progress K state vt origin ts seen added acc) {v : Move}
    (isVisible : v ∈ vt.visibleUnder v.parent)
    (isDone : v.IsOwn → v ∈ seen) :
    ∃ y ∈ siblings acc.1.tree v.parent, y.block = v.block ∧
      Stands vt origin y ∧
      y.opID.origin = if v.IsOwn then origin else v.opID.origin := by
  obtain ⟨member, -, visible⟩ := mem_visibleUnder.mp isVisible
  by_cases own : v.IsOwn
  · have inSeen : (v.block, v.parent) ∈
        seen.map fun x => (x.block, x.parent) :=
      List.mem_map_of_mem (isDone own)
    rw [← progress.added_eq] at inSeen
    obtain ⟨y, isAdded, same⟩ := List.mem_map.mp inSeen
    obtain ⟨sameBlock, sameParent⟩ := Prod.mk.inj same
    have sameOrigin := (progress.added_opID y isAdded).1
    refine ⟨y, mem_siblings.mpr ⟨progress.valid.mem_tree.mpr
      (progress.mem_log.mpr (Or.inr isAdded)), sameParent⟩, sameBlock,
      Or.inl sameOrigin, ?_⟩
    rw [if_pos own, sameOrigin]
  · refine ⟨v, mem_siblings.mpr ⟨progress.valid.mem_tree.mpr
      (progress.mem_log.mpr (Or.inl (draft.mem_log.mpr ⟨member, own⟩))), rfl⟩,
      rfl, Or.inr ((draft.visible_iff member).mp visible), ?_⟩
    rw [if_neg own]

/-- The operation that is produced for an own move. -/
def producedOp (origin : String) (ts idx : Int) (m : Move)
    (left leftOrigin : String) : MoveOp :=
  ⟨⟨origin, ts, idx⟩, m.block, m.parent, left, leftOrigin⟩

/-- The left sibling that the walk reports can be found. -/
inductive LeftDone (vt : TreeMutation) (seen : List Move) (m : Move) :
    String → String → Prop where
  | trash (isTrash : m.parent = trashNodeID) : LeftDone vt seen m "" ""
  | first {right : List Move}
      (split : vt.visibleUnder m.parent = m :: right) : LeftDone vt seen m "" ""
  | next {left right : List Move} {v : Move}
      (split : vt.visibleUnder m.parent = (left ++ [v]) ++ m :: right)
      (isDone : v.IsOwn → v ∈ seen) :
      LeftDone vt seen m v.block v.opID.origin

/-- What is known of the own move that is integrated next. -/
structure NextMove (vt : TreeMutation) (seen : List Move) (m : Move) :
    Prop where
  member : m ∈ vt.tree
  own : m.IsOwn
  fresh : m ∉ seen
  seenOwn : ∀ x ∈ seen, x ∈ vt.tree ∧ x.IsOwn

/-- The next operation is acceptable once its left sibling is found. -/
theorem Progress.accepts (draft : Draft K state vt)
    (isNew : NewOrigin state origin ts)
    (progress : Progress K state vt origin ts seen added acc)
    (next : NextMove vt seen m) {left leftOrigin : String}
    (notTrash : left ≠ trashNodeID) (named : left ≠ "" → leftOrigin ≠ "")
    (anchored : Anchored (producedOp origin ts acc.2 m left leftOrigin)
      (siblings acc.1.tree m.parent)) :
    Accepts acc.1 (producedOp origin ts acc.2 m left leftOrigin) := by
  refine ⟨fun x member => (progress.newest isNew x member).ne, ?_, notTrash,
    named, anchored⟩
  rintro x member ⟨sameBlock, sameOrigin⟩
  rcases progress.mem_log.mp member with old | isAdded
  · exact isNew.fresh x old sameOrigin
  · have inSeen : (x.block, x.parent) ∈
        seen.map fun x => (x.block, x.parent) := by
      rw [← progress.added_eq]
      exact List.mem_map_of_mem isAdded
    obtain ⟨z, isSeen, same⟩ := List.mem_map.mp inSeen
    obtain ⟨zMember, zOwn⟩ := next.seenOwn z isSeen
    have zBlock : z.block = m.block := (Prod.mk.inj same).1.trans sameBlock
    have wins := draft.own_wins zMember zOwn
    rw [zBlock, draft.own_wins next.member next.own] at wins
    exact next.fresh (Option.some.inj wins ▸ isSeen)

/-- The origin of the left sibling, as `commit` completes it. -/
def leftOriginOf (origin left leftOrigin : String) : String :=
  if left ≠ "" ∧ leftOrigin = "" then origin else leftOrigin

/-- Where the next operation is inserted among the siblings so far. -/
structure InsertedAt (state : TreeCRDT) (op : MoveOp)
    (front back : List Move) : Prop where
  split : siblings state.tree op.parent = front ++ back
  inserted : siblingInsertion.insert op
      ((siblings state.tree op.parent).map Move.op) =
    front.map Move.op ++ op :: back.map Move.op
  anchored : Anchored op (siblings state.tree op.parent)

/-- Without a left sibling the next operation goes to the start. -/
theorem Progress.insertedAt_start (isNew : NewOrigin state origin ts)
    (progress : Progress K state vt origin ts seen added acc) (m : Move) :
    InsertedAt acc.1 (producedOp origin ts acc.2 m "" "") []
      (siblings acc.1.tree m.parent) := by
  have isHead : siblingInsertion.isHead (producedOp origin ts acc.2 m "" "") :=
    (siblingInsertion_isHead _).mpr ⟨rfl, rfl⟩
  refine ⟨rfl, ?_, Or.inl isHead⟩
  rw [CausalInsertion.insert, if_pos isHead,
    CausalInsertion.skip_of_newest]
  · rfl
  · intro item member
    obtain ⟨y, isIn, rfl⟩ := List.mem_map.mp member
    exact progress.newest isNew y
      (progress.valid.mem_tree.mp (mem_siblings.mp isIn).1)

/-- The next operation goes right after its visible left sibling. -/
theorem Progress.insertedAt_next (draft : Draft K state vt)
    (isNew : NewOrigin state origin ts)
    (progress : Progress K state vt origin ts seen added acc) {v : Move}
    (isVisible : v ∈ vt.visibleUnder m.parent) (isDone : v.IsOwn → v ∈ seen) :
    ∃ init y back, y.block = v.block ∧ Stands vt origin y ∧
      InsertedAt acc.1 (producedOp origin ts acc.2 m v.block
        (leftOriginOf origin v.block v.opID.origin)) (init ++ [y]) back := by
  obtain ⟨inTree, under, -⟩ := mem_visibleUnder.mp isVisible
  rw [← under] at isVisible
  obtain ⟨y, member, sameBlock, stands, yOrigin⟩ :=
    progress.exists_anchor draft isVisible isDone
  rw [under] at member
  have originEq : y.opID.origin = leftOriginOf origin v.block v.opID.origin := by
    have named : v.block ≠ "" := (draft.place v inTree).ne_root
    rw [yOrigin, leftOriginOf]
    by_cases own : v.IsOwn
    · rw [if_pos own, if_pos ⟨named, own⟩]
    · rw [if_neg own, if_neg fun both => own both.2]
  generalize leftOriginOf origin v.block v.opID.origin = leftOrigin at originEq
  have refers : siblingInsertion.refersTo
      (producedOp origin ts acc.2 m v.block leftOrigin) y.op :=
    (siblingInsertion_refersTo _ _).mpr
      ⟨(mem_siblings.mp member).2, sameBlock, originEq⟩
  have notHead : ¬ siblingInsertion.isHead
      (producedOp origin ts acc.2 m v.block leftOrigin) = true := by
    rw [siblingInsertion_isHead]
    exact fun head => (draft.place v inTree).ne_root head.1
  obtain ⟨init, rest, split⟩ := List.append_of_mem member
  have nodup := (progress.valid.treeIndex.nodup m.parent)
  rw [split] at nodup
  have inLog : ∀ z ∈ siblings acc.1.tree m.parent, z ∈ acc.1.log :=
    fun z isIn => progress.valid.mem_tree.mp (mem_siblings.mp isIn).1
  refine ⟨init, y, rest, sameBlock, stands, split.trans (by simp), ?_,
    Or.inr ⟨y, member, refers⟩⟩
  change siblingInsertion.insert _
    ((siblings acc.1.tree m.parent).map Move.op) = _
  rw [CausalInsertion.insert, if_neg notHead, split, List.map_append,
    List.map_cons, CausalInsertion.after_append _ refers,
    CausalInsertion.skip_of_newest]
  · simp
  · intro item isIn
    obtain ⟨z, inRest, rfl⟩ := List.mem_map.mp isIn
    exact progress.newest isNew z (inLog z (by rw [split]; simp [inRest]))
  · intro item isIn refers'
    obtain ⟨z, inInit, rfl⟩ := List.mem_map.mp isIn
    obtain ⟨_, zBlock, zOrigin⟩ := (siblingInsertion_refersTo _ _).mp refers'
    have found := progress.valid.origins_eq.mpr
      ⟨inLog z (by rw [split]; simp [inInit]), zBlock, zOrigin⟩
    have found' := progress.valid.origins_eq.mpr
      ⟨inLog y member, sameBlock, originEq⟩
    obtain rfl := Option.some.inj (found.symm.trans found')
    exact (List.nodup_append.mp nodup).2.2 z inInit z List.mem_cons_self rfl

/-- The blocks that are done under a parent, once the next move is. -/
theorem doneUnder_other {parent : String} (differs : parent ≠ m.parent) :
    doneUnder vt (seen ++ [m]) parent = doneUnder vt seen parent := by
  refine List.filter_congr fun x member => ?_
  have notM : x ≠ m := by
    rintro rfl
    exact differs (mem_visibleUnder.mp member).2.1.symm
  simp [notM]

/-- Around the next move, what is done stands on its left and on its right. -/
theorem doneUnder_split {left right : List Move} (draft : Draft K state vt)
    (next : NextMove vt seen m)
    (split : vt.visibleUnder m.parent = left ++ m :: right) :
    doneUnder vt seen m.parent =
        (left.filter fun v => ¬ v.IsOwn ∨ v ∈ seen) ++
          right.filter (fun v => ¬ v.IsOwn ∨ v ∈ seen) ∧
      doneUnder vt (seen ++ [m]) m.parent =
        (left.filter fun v => ¬ v.IsOwn ∨ v ∈ seen) ++
          m :: right.filter fun v => ¬ v.IsOwn ∨ v ∈ seen := by
  have nodup : (left ++ m :: right).Nodup :=
    split ▸ (draft.sound.index.nodup m.parent).filter _
  have notLeft : ∀ x ∈ left, x ≠ m := fun x member same =>
    (List.nodup_append.mp nodup).2.2 x member m List.mem_cons_self same
  have notRight : ∀ x ∈ right, x ≠ m := by
    rintro x member rfl
    exact (List.nodup_cons.mp (List.nodup_append.mp nodup).2.1).1 member
  have keep : ∀ {items : List Move}, (∀ x ∈ items, x ≠ m) →
      (items.filter fun v => ¬ v.IsOwn ∨ v ∈ seen ++ [m]) =
        items.filter fun v => ¬ v.IsOwn ∨ v ∈ seen := by
    intro items others
    refine List.filter_congr fun x member => ?_
    simp [others x member]
  constructor
  · rw [doneUnder, split, List.filter_append, List.filter_cons_of_neg]
    simp [next.own, next.fresh]
  · rw [doneUnder, split, List.filter_append, List.filter_cons_of_pos,
      keep notLeft, keep notRight]
    simp

/-- A new move at the start stands before the other visible siblings. -/
theorem Progress.order_first (draft : Draft K state vt)
    (progress : Progress K state vt origin ts seen added acc)
    (next : NextMove vt seen m) (notTrash : m.parent ≠ trashNodeID)
    {right : List Move} (shape : vt.visibleUnder m.parent = m :: right)
    {x : Move} (named : x.block = m.block) (stands : Stands vt origin x) :
    ((x :: siblings acc.1.tree m.parent).filter
        fun y => Stands vt origin y).map Move.block =
      (doneUnder vt (seen ++ [m]) m.parent).map Move.block := by
  have order := progress.order m.parent notTrash
  obtain ⟨before, after⟩ := doneUnder_split draft next
    (show vt.visibleUnder m.parent = [] ++ m :: right from shape)
  rw [before] at order
  rw [after]
  simpa [stands, named] using order

/-- A new move after a sibling stands right after it. -/
theorem Progress.order_next (draft : Draft K state vt)
    (progress : Progress K state vt origin ts seen added acc)
    (next : NextMove vt seen m) (notTrash : m.parent ≠ trashNodeID)
    {left right init back : List Move} {v y x : Move}
    (shape : vt.visibleUnder m.parent = (left ++ [v]) ++ m :: right)
    (isDone : v.IsOwn → v ∈ seen)
    (split : siblings acc.1.tree m.parent = (init ++ [y]) ++ back)
    (sameBlock : y.block = v.block) (stands : Stands vt origin y)
    (named : x.block = m.block) (stands' : Stands vt origin x) :
    (((init ++ [y]) ++ x :: back).filter fun y => Stands vt origin y).map
        Move.block = (doneUnder vt (seen ++ [m]) m.parent).map Move.block := by
  have order := progress.order m.parent notTrash
  have nodup : ((doneUnder vt seen m.parent).map Move.block).Nodup :=
    (draft.nodup_blocks m.parent).sublist (List.filter_sublist.map _)
  obtain ⟨before, after⟩ := doneUnder_split draft next shape
  have done : ¬ v.IsOwn ∨ v ∈ seen := by
    by_cases own : v.IsOwn
    · exact Or.inr (isDone own)
    · exact Or.inl own
  rw [before] at nodup
  rw [split, before] at order
  rw [after]
  simp only [List.filter_append, List.filter_cons, List.filter_nil, stands,
    stands', done, decide_true, ↓reduceIte, List.map_append, List.map_cons,
    List.append_assoc, List.singleton_append, sameBlock, named]
    at order nodup ⊢
  obtain ⟨_, nodupRight, apart⟩ := List.nodup_append.mp nodup
  have notLeft : v.block ∉ (left.filter fun v => ¬ v.IsOwn ∨ v ∈ seen).map
      Move.block :=
    fun member => apart _ member _ List.mem_cons_self rfl
  have notRight := (List.nodup_cons.mp nodupRight).1
  obtain ⟨sameLeft, -, sameRight⟩ :=
    (List.append_cons_inj_of_notMem notLeft notRight).mp order.symm
  rw [sameLeft, sameRight]

/-- The place of the next operation. -/
theorem Progress.exists_place (draft : Draft K state vt)
    (isNew : NewOrigin state origin ts)
    (progress : Progress K state vt origin ts seen added acc)
    (next : NextMove vt seen m) {left leftOrigin : String}
    (done : LeftDone vt seen m left leftOrigin) :
    ∃ front back, InsertedAt acc.1 (producedOp origin ts acc.2 m left
        (leftOriginOf origin left leftOrigin)) front back ∧
      (m.parent ≠ trashNodeID → ∀ x : Move, x.block = m.block →
        Stands vt origin x →
        ((front ++ x :: back).filter fun y => Stands vt origin y).map
            Move.block =
          (doneUnder vt (seen ++ [m]) m.parent).map Move.block) := by
  have start : InsertedAt acc.1 (producedOp origin ts acc.2 m ""
      (leftOriginOf origin "" "")) [] (siblings acc.1.tree m.parent) :=
    progress.insertedAt_start isNew m
  cases done with
  | trash isTrash =>
      exact ⟨_, _, start, fun notTrash => absurd isTrash notTrash⟩
  | first shape =>
      exact ⟨_, _, start, fun notTrash x named stands =>
        progress.order_first draft next notTrash shape named stands⟩
  | @next left right v shape isDone =>
      have isVisible : v ∈ vt.visibleUnder m.parent := by simp [shape]
      obtain ⟨init, y, back, sameBlock, stands, inserted⟩ :=
        progress.insertedAt_next draft isNew isVisible isDone
      exact ⟨_, _, inserted, fun notTrash x named stands' =>
        progress.order_next draft next notTrash shape isDone inserted.split
          sameBlock stands named stands'⟩

theorem LeftDone.left_proper (draft : Draft K state vt)
    (isNew : NewOrigin state origin ts) {left leftOrigin : String}
    (done : LeftDone vt seen m left leftOrigin) :
    left ≠ trashNodeID ∧
      (left ≠ "" → leftOriginOf origin left leftOrigin ≠ "") := by
  constructor
  · cases done with
    | trash _ => decide
    | first _ => decide
    | @next _ _ v shape _ =>
        have isVisible : v ∈ vt.visibleUnder m.parent := by simp [shape]
        exact (draft.place v (mem_visibleUnder.mp isVisible).1).ne_trash
  · intro named
    rw [leftOriginOf]
    split_ifs with unset
    · exact isNew.named
    · exact fun empty => unset ⟨named, empty⟩

/-- Integrating the operation of the next own move. -/
theorem Progress.step (draft : Draft K state vt)
    (isNew : NewOrigin state origin ts)
    (progress : Progress K state vt origin ts seen added acc)
    (next : NextMove vt seen m) {left leftOrigin : String}
    (done : LeftDone vt seen m left leftOrigin) :
    ∃ x acc', commitMove K origin ts acc m.block m.parent left leftOrigin =
        .ok (acc', true) ∧
      Progress K state vt origin ts (seen ++ [m]) (added ++ [x]) acc' := by
  obtain ⟨front, back, inserted, order⟩ :=
    progress.exists_place draft isNew next done
  obtain ⟨notTrash, named⟩ := done.left_proper draft isNew
  have accepts := progress.accepts draft isNew next notTrash named
    inserted.anchored
  obtain ⟨x, state', returned, integrated⟩ :=
    integrate_spec progress.valid accepts
  have newest := progress.newest isNew
  have opID_eq : x.opID = ⟨origin, ts, acc.2⟩ :=
    congrArg MoveOp.opID integrated.op_eq
  have block_eq : x.block = m.block := congrArg MoveOp.block integrated.op_eq
  have parent_eq : x.parent = m.parent :=
    congrArg MoveOp.parent integrated.op_eq
  have siblings_eq := integrated.siblings_eq
    (fun y member => (newest y
      (progress.valid.mem_tree.mp (mem_siblings.mp member).1)).ne)
    inserted.split inserted.inserted
  refine ⟨x, (state', acc.2 + 1), ?_, integrated.valid, ?_, ?_, ?_, ?_, ?_⟩
  · rw [TreeCRDT.integrateOp] at returned
    simp only [commitMove]
    rw [show acc.1.integrate K ⟨origin, ts, acc.2⟩ m.block m.parent left
      (if left ≠ "" ∧ leftOrigin = "" then origin else leftOrigin) =
        .ok (.ok state') from returned]
    rfl
  · rw [integrated.log_eq, ← List.append_assoc, ← progress.log_eq]
    exact KeyedList.set_of_greatest (opID_eq ▸ newest)
  · simp [progress.count]
  · simp [progress.added_eq, block_eq, parent_eq]
  · intro y member
    rcases List.mem_append.mp member with old | isNewest
    · obtain ⟨sameOrigin, sameTs, less⟩ := progress.added_opID y old
      exact ⟨sameOrigin, sameTs, less.trans (lt_add_one _)⟩
    · obtain rfl := List.mem_singleton.mp isNewest
      rw [opID_eq]
      exact ⟨rfl, rfl, lt_add_one _⟩
  · intro parent parentNotTrash
    by_cases here : parent = m.parent
    · subst here
      have stands : Stands vt origin x :=
        Or.inl (congrArg OpID.origin opID_eq)
      rw [← order parentNotTrash x block_eq stands]
      exact congrArg (fun moves : List Move =>
        (moves.filter fun y => Stands vt origin y).map Move.block) siblings_eq
    · rw [integrated.others parent here, doneUnder_other here]
      exact progress.order parent parentNotTrash

end Integration

/-! ## The whole commit -/

section Commit

variable {K : Fracdex} {state : TreeCRDT} {vt : TreeMutation}
    {origin : String} {ts : Int} {x : Move}

section Report

variable {σ : Type}
    {fn : σ → String → String → String → String → Outcome (σ × Bool)}
    {acc : σ}

/-- An own move outside the trash is handed out. -/
theorem reportMove_of_own (own : x.IsOwn) (notTrash : x.parent ≠ trashNodeID) :
    vt.reportMove fn acc x = fn acc x.block x.parent
      (vt.visibleLeftSibling x vt.dirtyInvisibleMoves).1
      (vt.visibleLeftSibling x vt.dirtyInvisibleMoves).2.origin := by
  have unset : x.opID.origin = "" := own
  simp [reportMove, unset, notTrash]

theorem reportMove_of_not_own (notOwn : ¬ x.IsOwn) :
    vt.reportMove fn acc x = .ok (acc, true) := by
  have set : ¬ x.opID.origin = "" := notOwn
  simp [reportMove, set]

/-- An own move into the trash is handed out. -/
theorem reportDelete_of_own (own : x.IsOwn) (isTrash : x.parent = trashNodeID) :
    reportDelete fn acc x = fn acc x.block x.parent "" "" := by
  have unset : x.opID.origin = "" := own
  simp [reportDelete, unset, isTrash]

theorem reportDelete_of_other
    (other : ¬ (x.IsOwn ∧ x.parent = trashNodeID)) :
    reportDelete fn acc x = .ok (acc, true) := by
  by_cases isTrash : x.parent = trashNodeID
  · have set : ¬ x.opID.origin = "" := fun own => other ⟨own, isTrash⟩
    simp [reportDelete, set]
  · simp [reportDelete, isTrash]

end Report

namespace Draft

/-- The own moves to the trash. -/
def deletes (vt : TreeMutation) : List Move :=
  (KeyedList.ascend Move.parentOrder (Move.pivot trashNodeID "").parentOrder
    vt.tree).filter fun x => x.IsOwn ∧ x.parent = trashNodeID

/-- The moves that operations are produced for. -/
def produced (draft : Draft K state vt) : List Move :=
  (draft.walk.filter fun x => x.IsOwn) ++ deletes vt

theorem mem_deletes : x ∈ deletes vt ↔
    x ∈ vt.tree ∧ x.IsOwn ∧ x.parent = trashNodeID := by
  have beyond : x.parent = trashNodeID →
      (Move.pivot trashNodeID "").parentOrder ≤ x.parentOrder := by
    intro isTrash
    exact Prod.Lex.le_iff.mpr (Or.inr ⟨isTrash.symm, empty_le_string _⟩)
  rw [deletes, KeyedList.ascend, List.filter_filter, List.mem_filter]
  refine and_congr_right fun _ => ?_
  simp only [Bool.and_eq_true, decide_eq_true_eq]
  exact ⟨And.left, fun both => ⟨both, beyond both.2⟩⟩

/-- What is handed out are the own moves into the trash or below a shown parent. -/
theorem mem_produced (draft : Draft K state vt) : x ∈ draft.produced ↔
    x ∈ vt.tree ∧ x.IsOwn ∧ (x.parent = trashNodeID ∨ vt.Shown x.parent) := by
  rw [produced, List.mem_append, mem_deletes, List.mem_filter,
    draft.mem_walk_iff, decide_eq_true_eq]
  constructor
  · rintro (⟨⟨visible, shown⟩, own⟩ | ⟨member, own, isTrash⟩)
    · exact ⟨(mem_visibleUnder.mp visible).1, own, Or.inr shown⟩
    · exact ⟨member, own, Or.inl isTrash⟩
  · rintro ⟨member, own, isTrash | shown⟩
    · exact Or.inr ⟨member, own, isTrash⟩
    · exact Or.inl ⟨⟨draft.own_visible member own, shown⟩, own⟩

/-- The left sibling of a visited own move is visited before it. -/
theorem leftDone_of_walk (draft : Draft K state vt) {seen rest : List Move}
    {m : Move} (split : draft.walk = seen ++ m :: rest) (own : m.IsOwn) :
    LeftDone vt (seen.filter fun x => x.IsOwn) m
      (vt.visibleLeftSibling m vt.dirtyInvisibleMoves).1
      (vt.visibleLeftSibling m vt.dirtyInvisibleMoves).2.origin := by
  have visited : m ∈ draft.walk := by simp [split]
  obtain ⟨left, right, shape, found⟩ :=
    draft.exists_visible_split (draft.mem_tree_of_mem_walk visited) own
  rw [found]
  rcases List.eq_nil_or_concat' left with rfl | ⟨left, v, rfl⟩
  · exact .first shape
  · rw [List.getLast?_concat]
    refine .next shape fun vOwn => List.mem_filter.mpr ⟨?_, by simpa using vOwn⟩
    exact Forest.sibling_mem_front split visited shape (by simp)

/-- The walk integrates the own moves that it visits. -/
theorem visit_walk (draft : Draft K state vt)
    (isNew : NewOrigin state origin ts) :
    ∃ acc, visit (vt.reportMove (commitMove K origin ts)) draft.walk
        (state, 0) = .ok acc ∧
      ∃ added, Progress K state vt origin ts
        (draft.walk.filter fun x => x.IsOwn) added acc := by
  refine visit_invariant (fun seen acc => ∃ added, Progress K state vt origin ts
    (seen.filter fun x => x.IsOwn) added acc) ?_ ⟨[], .start draft isNew⟩
  rintro seen m rest acc split ⟨added, progress⟩
  have visited : m ∈ draft.walk := by simp [split]
  by_cases own : m.IsOwn
  · have nodup : draft.walk.Nodup := Forest.walk_nodup _
    rw [split] at nodup
    have shown := (draft.mem_walk_iff.mp visited).2
    have notTrash : m.parent ≠ trashNodeID := fun isTrash =>
      draft.not_shown_trash (isTrash ▸ shown)
    have next : NextMove vt (seen.filter fun x => x.IsOwn) m := by
      refine ⟨draft.mem_tree_of_mem_walk visited, own, fun member => ?_, ?_⟩
      · exact (List.nodup_append.mp nodup).2.2 m
          (List.mem_filter.mp member).1 m List.mem_cons_self rfl
      · intro x member
        obtain ⟨isSeen, xOwn⟩ := List.mem_filter.mp member
        exact ⟨draft.mem_tree_of_mem_walk (by simp [split, isSeen]),
          by simpa using xOwn⟩
    obtain ⟨x, acc', returned, progress'⟩ := progress.step draft isNew next
      (draft.leftDone_of_walk split own)
    refine ⟨acc', ?_, added ++ [x], ?_⟩
    · rw [reportMove_of_own own notTrash, returned]
    · rwa [List.filter_append, List.filter_cons_of_pos (by simpa using own),
        List.filter_nil]
  · refine ⟨acc, by rw [reportMove_of_not_own own], added, ?_⟩
    rwa [List.filter_append, List.filter_cons_of_neg (by simpa using own),
      List.filter_nil, List.append_nil]

/-- Afterwards the moves to the trash are integrated. -/
theorem visit_deletes (draft : Draft K state vt)
    (isNew : NewOrigin state origin ts) {added : List Move}
    {acc : TreeCRDT × Int}
    (progress : Progress K state vt origin ts
      (draft.walk.filter fun x => x.IsOwn) added acc) :
    ∃ acc', visit (reportDelete (commitMove K origin ts))
        (KeyedList.ascend Move.parentOrder
          (Move.pivot trashNodeID "").parentOrder vt.tree) acc = .ok acc' ∧
      ∃ added', Progress K state vt origin ts draft.produced added' acc' := by
  refine visit_invariant (fun items acc => ∃ added, Progress K state vt origin ts
    ((draft.walk.filter fun x => x.IsOwn) ++
      items.filter fun x => x.IsOwn ∧ x.parent = trashNodeID) added acc) ?_
    ⟨added, by simpa using progress⟩
  rintro items m rest acc split ⟨added, progress⟩
  have nodup := (draft.sound.index.sorted.filter fun x =>
    (Move.pivot trashNodeID "").parentOrder ≤ x.parentOrder).nodup
  change (KeyedList.ascend Move.parentOrder
    (Move.pivot trashNodeID "").parentOrder vt.tree).Nodup at nodup
  have inTree : ∀ x ∈ KeyedList.ascend Move.parentOrder
      (Move.pivot trashNodeID "").parentOrder vt.tree, x ∈ vt.tree :=
    fun x member => (List.mem_filter.mp member).1
  rw [split] at nodup inTree
  by_cases isDelete : m.IsOwn ∧ m.parent = trashNodeID
  · obtain ⟨own, isTrash⟩ := isDelete
    have next : NextMove vt ((draft.walk.filter fun x => x.IsOwn) ++
        items.filter fun x => x.IsOwn ∧ x.parent = trashNodeID) m := by
      refine ⟨inTree m (by simp), own, fun member => ?_, ?_⟩
      · rcases List.mem_append.mp member with isWalked | isItem
        · have shown := (draft.mem_walk_iff.mp
            (List.mem_filter.mp isWalked).1).2
          exact draft.not_shown_trash (isTrash ▸ shown)
        · exact (List.nodup_append.mp nodup).2.2 m
            (List.mem_filter.mp isItem).1 m List.mem_cons_self rfl
      · intro x member
        rcases List.mem_append.mp member with isWalked | isItem
        · obtain ⟨visited, xOwn⟩ := List.mem_filter.mp isWalked
          exact ⟨draft.mem_tree_of_mem_walk visited, by simpa using xOwn⟩
        · obtain ⟨isIn, both⟩ := List.mem_filter.mp isItem
          exact ⟨inTree x (by simp [isIn]), (by simpa using both : _ ∧ _).1⟩
    obtain ⟨x, acc', returned, progress'⟩ := progress.step draft isNew next
      (.trash isTrash)
    refine ⟨acc', ?_, added ++ [x], ?_⟩
    · rw [reportDelete_of_own own isTrash, returned]
    · rwa [List.filter_append,
        List.filter_cons_of_pos (by simpa using ⟨own, isTrash⟩),
        List.filter_nil, ← List.append_assoc]
  · refine ⟨acc, by rw [reportDelete_of_other isDelete], added, ?_⟩
    rwa [List.filter_append, List.filter_cons_of_neg (by simpa using isDelete),
      List.filter_nil, List.append_nil]

/-- A commit integrates all produced operations and reports no error. -/
theorem commit_converges (draft : Draft K state vt)
    (isNew : NewOrigin state origin ts) :
    ∃ state' count added,
      Converges (fun fuel => vt.commit K fuel origin ts state)
        (.ok (state', none)) ∧
      Progress K state vt origin ts draft.produced added (state', count) := by
  obtain ⟨acc, walked, added, progress⟩ := draft.visit_walk isNew
  obtain ⟨⟨state', count⟩, deleted, added', progress'⟩ :=
    draft.visit_deletes isNew progress
  refine ⟨state', count, added', ?_, progress'⟩
  have walk := walkDFT_converges draft.sound.index draft.sound.oneVisible
    draft.blocksNamed (vt.reportMove (commitMove K origin ts)) (state, 0)
  change Converges _ (visit _ draft.walk _) at walk
  rw [walked] at walk
  have reported : Converges
      (fun fuel => vt.forEachMove fuel (commitMove K origin ts) (state, 0))
      (.ok (state', count)) := walk.bind (deleted ▸ .const _)
  exact reported.bind (.const _)

end Draft

end Commit

end Mintter.Docmodel
