import Mintter.Foundation.Arrangements

/-!
# The changes that a draft is saved with

The editor does not send the whole document.  `createBlocksMap` notes for every block of the
saved draft its parent, its left sibling and its content, and `compareDraftWithMap` asks for a
move of every block that has another parent or another left sibling, and for a replacement of
every block whose content differs.  `extractDeletes` deletes the blocks that are gone.

A list of block nodes is its first node with its children, and the nodes after it.
-/

namespace Mintter.Frontend.DraftDiff

open Mintter.Foundation

/-! ## Blocks -/

/-- The values of the attributes by their names. -/
abbrev Attributes := String → Option String

/-- A block of a document. -/
structure HMBlock (A : Type) where
  id : String
  type : String
  text : String
  ref : Option String
  annotations : List A
  attributes : Option Attributes

/-- Blocks next to each other, each with its children. -/
inductive HMBlockNodes (A : Type) where
  | nil
  | node (block : HMBlock A) (children next : HMBlockNodes A)

variable {A : Type}

/-- A block with its parent and its left sibling. -/
structure BlocksMapItem (A : Type) where
  parent : String
  left : String
  block : HMBlock A

/-- An object with its keys in the order in which they were set first. -/
abbrev BlocksMap (A : Type) := List (String × BlocksMapItem A)

namespace BlocksMap

/-- The ids of the map, in the order in which they were set. -/
def keys (blocksMap : BlocksMap A) : List String := blocksMap.map Prod.fst

/-- The item of an id. -/
def get (blocksMap : BlocksMap A) (id : String) : Option (BlocksMapItem A) :=
  blocksMap.lookup id

/-- Set the item of an id, at its old place if it has one. -/
def set (blocksMap : BlocksMap A) (id : String) (item : BlocksMapItem A) : BlocksMap A :=
  if id ∈ blocksMap.keys then
    blocksMap.map fun entry => if entry.1 = id then (id, item) else entry
  else blocksMap ++ [(id, item)]

/-- `{...blocksMap, ...more}` -/
def spread (blocksMap more : BlocksMap A) : BlocksMap A :=
  more.foldl (fun result entry => result.set entry.1 entry.2) blocksMap

end BlocksMap

/-- Blocks without an id are left out, with everything below them. -/
def createBlocksMap (parentId left : String) : HMBlockNodes A → BlocksMap A
  | .nil => []
  | .node block children next =>
      let result :=
        if block.id = "" then []
        else BlocksMap.spread [(block.id, ⟨parentId, left, block⟩)]
          (createBlocksMap block.id "" children)
      BlocksMap.spread result (createBlocksMap parentId block.id next)

/-! ## The changes -/

/-- A change of a draft, as it is sent to the server. -/
inductive DocumentChange (A : Type) where
  | moveBlock (blockId parent leftSibling : String)
  | replaceBlock (block : HMBlock A)
  | deleteBlock (id : String)

section Compare

variable [DecidableEq A]

end Compare

/-! ## What the changes mean -/

/-- A document as it is read: the children of every block, and what is in the blocks. -/
structure ShownDocument (A : Type) where
  kids : Arrangement String
  content : String → Option (HMBlock A)

/-- A move to a place behind a sibling, or in front of all of them. -/
def placing (blockId parent leftSibling : String) : Placing String :=
  ⟨blockId, parent, if leftSibling = "" then none else some leftSibling⟩

namespace ShownDocument

/-- Apply one change to the shown document. -/
def apply (doc : ShownDocument A) : DocumentChange A → ShownDocument A
  | .moveBlock blockId parent leftSibling =>
      { doc with kids := doc.kids.place (placing blockId parent leftSibling) }
  | .replaceBlock block =>
      { doc with content := Function.update doc.content block.id (some block) }
  | .deleteBlock id => { doc with kids := doc.kids.remove id }

/-- Apply changes one after the other. -/
def applyAll (doc : ShownDocument A) (changes : List (DocumentChange A)) : ShownDocument A :=
  changes.foldl apply doc

/-- The change is not rejected. -/
def Accepts (doc : ShownDocument A) : DocumentChange A → Prop
  | .moveBlock blockId parent leftSibling =>
      blockId ≠ "" ∧ doc.kids.Placeable "" (placing blockId parent leftSibling)
  | .replaceBlock block => block.id ≠ ""
  | .deleteBlock id => id ≠ ""

/-- Every change is accepted at its turn. -/
def AcceptsAll (doc : ShownDocument A) : List (DocumentChange A) → Prop
  | [] => True
  | change :: changes => doc.Accepts change ∧ (doc.apply change).AcceptsAll changes

end ShownDocument

/-- The ids of the nodes of a list, without those below them. -/
def HMBlockNodes.tops : HMBlockNodes A → List String
  | .nil => []
  | .node block _ next => block.id :: next.tops

/-- All blocks of a list, with their parents and left siblings. -/
def HMBlockNodes.items (parentId left : String) : HMBlockNodes A → List (BlocksMapItem A)
  | .nil => []
  | .node block children next =>
      ⟨parentId, left, block⟩ :: (children.items block.id "" ++ next.items parentId block.id)

/-- The blocks of a forest, each before its children. -/
def HMBlockNodes.blocks : HMBlockNodes A → List (HMBlock A)
  | .nil => []
  | .node block children next => block :: (children.blocks ++ next.blocks)

/-- The ids of the blocks. -/
def HMBlockNodes.ids (nodes : HMBlockNodes A) : List String := nodes.blocks.map HMBlock.id

/-- The children that a list of nodes has under a parent. -/
def HMBlockNodes.childrenOf (nodes : HMBlockNodes A) (parent : String) : List String :=
  ((nodes.items "" "").filter (·.parent = parent)).map fun item => item.block.id

/-- Every block has an id of its own. -/
structure HMBlockNodes.Distinct (nodes : HMBlockNodes A) : Prop where
  nodup : nodes.ids.Nodup
  named : "" ∉ nodes.ids

namespace ShownDocument

/-- The document has these nodes with their content, and nothing else below them. -/
def ShowsBelow (doc : ShownDocument A) : HMBlockNodes A → Prop
  | .nil => True
  | .node block children next =>
      doc.content block.id = some block ∧ doc.kids block.id = children.tops ∧
        doc.ShowsBelow children ∧ doc.ShowsBelow next

/-- The document is this list of nodes. -/
def Shows (doc : ShownDocument A) (nodes : HMBlockNodes A) : Prop :=
  doc.kids "" = nodes.tops ∧ doc.ShowsBelow nodes

end ShownDocument

section Places

variable {parent left q : String} {block : HMBlock A} {nodes children next : HMBlockNodes A}

/-- Where the block of an item is placed. -/
def BlocksMapItem.placing (item : BlocksMapItem A) : Placing String :=
  DraftDiff.placing item.block.id item.parent item.left

theorem placing_item (blockId parent left : String) :
    (placing blockId parent left).item = blockId := rfl

theorem placing_parent (blockId parent left : String) :
    (placing blockId parent left).parent = parent := rfl

namespace HMBlockNodes

/-- Where the blocks of a forest are placed. -/
def places (parent left : String) (nodes : HMBlockNodes A) : List (Placing String) :=
  (nodes.items parent left).map BlocksMapItem.placing

theorem map_block_items (parent left : String) (nodes : HMBlockNodes A) :
    (nodes.items parent left).map BlocksMapItem.block = nodes.blocks := by
  induction nodes generalizing parent left with
  | nil => rfl
  | node block children next ofChildren ofNext =>
      rw [items, List.map_cons, List.map_append, ofChildren, ofNext, blocks]

theorem ids_node : (node block children next).ids = block.id :: (children.ids ++ next.ids) := by
  rw [ids, blocks, List.map_cons, List.map_append, ids, ids]

theorem map_item_places (parent left : String) (nodes : HMBlockNodes A) :
    (nodes.places parent left).map Placing.item = nodes.ids := by
  rw [ids, ← map_block_items parent left, places, List.map_map, List.map_map]
  rfl

theorem places_node : (node block children next).places parent left =
    placing block.id parent left ::
      (children.places block.id "" ++ next.places parent block.id) := by
  rw [places, items, List.map_cons, List.map_append]
  rfl

theorem childrenOf_eq (nodes : HMBlockNodes A) (q : String) :
    nodes.childrenOf q = Arrangement.under (nodes.places "" "") q := by
  rw [childrenOf, Arrangement.under, places, List.filter_map, List.map_map]
  rfl

theorem parent_of_place {p : Placing String} (member : p ∈ nodes.places parent left) :
    p.parent = parent ∨ p.parent ∈ nodes.ids := by
  induction nodes generalizing parent left with
  | nil => cases member
  | node block children next ofChildren ofNext =>
      rw [places_node, List.mem_cons, List.mem_append] at member
      rw [ids_node, List.mem_cons, List.mem_append]
      rcases member with rfl | below | behind
      · exact Or.inl rfl
      · exact Or.inr ((ofChildren below).imp_right Or.inl)
      · exact (ofNext behind).imp_right fun later => Or.inr (Or.inr later)

theorem under_eq_nil (differs : q ≠ parent) (absent : q ∉ nodes.ids) :
    Arrangement.under (nodes.places parent left) q = [] := by
  apply List.eq_nil_iff_forall_not_mem.mpr
  intro x member
  rcases Arrangement.mem_under.mp member with ⟨p, isPlace, -, rfl⟩
  exact (parent_of_place isPlace).elim differs absent

/-- The nodes are listed parents first and siblings from left to right. -/
theorem planned_places {done : List (Placing String)}
    (known : parent = "" ∨ parent ∈ done.map Placing.item)
    (isLeft : (placing "" parent left).left = (Arrangement.under done parent).getLast?)
    (parents : ∀ d ∈ done, d.parent = "" ∨ d.parent ∈ done.map Placing.item)
    (nodup : (done.map Placing.item ++ nodes.ids).Nodup) (named : "" ∉ nodes.ids) :
    Arrangement.Planned "" done (nodes.places parent left) := by
  induction nodes generalizing parent left done with
  | nil => trivial
  | node block children next ofChildren ofNext =>
      rw [ids_node] at nodup named
      have notDone : block.id ∉ done.map Placing.item := by
        rw [List.nodup_middle, List.nodup_cons, List.mem_append, not_or] at nodup
        exact nodup.1.1
      have notBlank : block.id ≠ "" := fun same => named (same ▸ List.mem_cons_self)
      have isKnown : ∀ q, q = "" ∨ q ∈ done.map Placing.item → q ≠ block.id ∧
          q ∉ children.ids ∧ q ∉ next.ids := by
        rintro q (rfl | isDone)
        · rw [List.mem_cons, List.mem_append, not_or, not_or] at named
          exact named
        · have apart := (List.nodup_append.mp nodup).2.2 q isDone
          exact ⟨apart _ (by simp), fun member => apart q (by simp [member]) rfl,
            fun member => apart q (by simp [member]) rfl⟩
      have shape : (done ++ [placing block.id parent left]).map Placing.item =
          done.map Placing.item ++ [block.id] := by
        rw [List.map_append]
        rfl
      have firstParents : ∀ d ∈ done ++ [placing block.id parent left],
          d.parent = "" ∨
            d.parent ∈ (done ++ [placing block.id parent left]).map Placing.item := by
        intro d member
        rw [shape, List.mem_append]
        rcases List.mem_append.mp member with isDone | isNow
        · exact (parents d isDone).imp_right Or.inl
        · rw [List.mem_singleton.mp isNow]
          exact known.imp_right Or.inl
      rw [places_node]
      refine ⟨known, isLeft, Arrangement.planned_append (ofChildren ?_ ?_ firstParents ?_ ?_)
        (ofNext ?_ ?_ ?_ ?_ ?_)⟩
      · rw [shape]
        exact Or.inr (by simp)
      · have childless : Arrangement.under done block.id = [] := by
          apply List.eq_nil_iff_forall_not_mem.mpr
          intro x member
          rcases Arrangement.mem_under.mp member with ⟨d, isDone, -, isParent⟩
          exact (isKnown _ (parents d isDone)).1 isParent
        rw [Arrangement.under_concat, placing_parent, if_neg (isKnown _ known).1, childless]
        rfl
      · rw [shape, List.append_assoc]
        have fewer := (List.sublist_append_left children.ids next.ids).cons_cons block.id
        exact nodup.sublist (fewer.append_left _)
      · exact fun member => named (by simp [member])
      · rw [List.map_append, shape]
        exact known.imp_right fun isDone => by simp [isDone]
      · rw [Arrangement.under_append, Arrangement.under_concat, placing_parent, if_pos rfl,
          under_eq_nil (isKnown _ known).1 (isKnown _ known).2.1, List.append_nil,
          List.getLast?_concat, placing, if_neg notBlank, placing_item]
      · intro d member
        rw [List.map_append]
        rcases List.mem_append.mp member with isBefore | isBelow
        · exact (firstParents d isBefore).imp_right (List.mem_append_left _)
        · rw [shape, map_item_places]
          rcases parent_of_place isBelow with isParent | isBelow
          · exact Or.inr (by simp [isParent])
          · exact Or.inr (by simp [isBelow])
      · rw [List.map_append, shape, map_item_places]
        simpa using nodup
      · exact fun member => named (by simp [member])

theorem Distinct.planned (distinct : nodes.Distinct) :
    Arrangement.Planned "" [] (nodes.places "" "") :=
  planned_places (Or.inl rfl) rfl (by simp) (by simpa using distinct.nodup) distinct.named

end HMBlockNodes

end Places

/-! ## The map of distinct blocks -/

section Maps

variable {parent left id : String} {nodes : HMBlockNodes A} {item : BlocksMapItem A}
  {blocksMap more : BlocksMap A}

namespace BlocksMap

end BlocksMap

end Maps

/-! ## Reading a document -/

section Reading

variable {parent left : String} {nodes : HMBlockNodes A} {doc : ShownDocument A}
  {under : String → List String}

namespace ShownDocument

end ShownDocument

end Reading

end Mintter.Frontend.DraftDiff
