import Mintter.Docmodel.Document
import Mintter.Docmodel.Representation
import Mintter.Foundation.Walks

/-!
# Rendering the visible tree

`Hydrate` walks the visible tree and builds the message in place: every block with content
becomes a node, which is appended to the children of the node of its parent.  A pointer to a
node is its position among the allocated nodes.  Blocks without content are skipped, but the
walk goes on below them; a block with content there has no node to be appended to.

The JSON conversion of a block is a parameter.
-/

namespace Mintter.Docmodel

open Mintter.Foundation
open Mintter.Crdt2

variable {β : Type}

/-! ## The messages -/

/-- A block message.  The type of its other fields is left open. -/
structure Block (β : Type) where
  id : String
  revision : String
  body : β
deriving DecidableEq, Repr

/-- The message of a block and of the blocks below it. -/
inductive BlockNode (β : Type) where
  | mk (block : Block β) (children : List (BlockNode β))

/-- Decode a block; its identifier and its revision are known. -/
def blockFromMap (unmarshal : Object → Except String β) (id revision : String) (v : Object) :
    Except String (Block β) :=
  (unmarshal v).map fun body => ⟨id, revision, body⟩

mutual

/-- The blocks of a node with their parents, in depth-first order. -/
def BlockNode.placed (parent : String) : BlockNode β → List (String × Block β)
  | .mk block children => (parent, block) :: placedAll block.id children

/-- The blocks of some siblings and below them with their parents. -/
def placedAll (parent : String) : List (BlockNode β) → List (String × Block β)
  | [] => []
  | node :: rest => node.placed parent ++ placedAll parent rest

end

/-! ## Nodes that are built in place -/

/-- An allocated node; its children are pointers. -/
structure NodeCell (β : Type) where
  block : Block β
  children : List Nat

/-- The children of the document, the allocated nodes, and the nodes by block. -/
structure Assembly (β : Type) where
  children : List Nat
  nodes : List (NodeCell β)
  blockMap : String → Option Nat

namespace Assembly

/-- A page without blocks. -/
def empty : Assembly β := ⟨[], [], fun _ => none⟩

/-- Append a block to its parent, which must be there. -/
def appendChild (page : Assembly β) (parent : String) (child : Nat) : Outcome (Assembly β) :=
  if parent = "" then pure { page with children := page.children ++ [child] }
  else match page.blockMap parent with
    | none => panicWith ("BUG: no parent " ++ parent ++ " was found yet while iterating")
    | some blk =>
        pure { page with
          nodes := page.nodes.modify blk fun cell =>
            { cell with children := cell.children ++ [child] } }

/-- Allocate the node of a block, append it to its parent, and note it. -/
def addNode (page : Assembly β) (parent : String) (blk : Block β) : Outcome (Assembly β) := do
  let child := page.nodes.length
  let page ← appendChild { page with nodes := page.nodes ++ [⟨blk, []⟩] } parent child
  pure { page with blockMap := Function.update page.blockMap blk.id (some child) }

/-- Follow the pointers, down to the given depth. -/
def follow (nodes : List (NodeCell β)) : Nat → List Nat → List (BlockNode β)
  | 0, _ => []
  | depth + 1, children =>
      children.filterMap fun child => (nodes[child]?).map fun cell =>
        .mk cell.block (follow nodes depth cell.children)

/-- The children of the finished document. -/
def message (page : Assembly β) : List (BlockNode β) :=
  follow page.nodes page.nodes.length page.children

end Assembly

/-! ## The walk -/

/-- The text of a CID; an undefined one has the prefix of its base only. -/
def cidString (c : String) : String := if c = "" then "b" else c

/-- What the callback of the walk knows besides the visible tree. -/
structure Hydration (β : Type) where
  unmarshal : Object → Except String β
  state : Map
  origins : String → String
  oldDraft : String

namespace Hydration

/-- The revision of a block that was last written by an origin. -/
def revision (h : Hydration β) (origin : String) : String :=
  let oo := if h.origins origin = "" then h.oldDraft else h.origins origin
  cidString oo

/-- Render the block of one move; an error ends the walk. -/
def hydrateMove (h : Hydration β) (acc : Assembly β × Option String) (m : Move) :
    Outcome ((Assembly β × Option String) × Bool) :=
  match h.state.getWithOrigin ["blocks", m.block] with
  | none => pure (acc, true)
  | some (mm, origin) => do
      let v ← assertType Value.asMap (some mm)
      match blockFromMap h.unmarshal m.block (h.revision origin) v with
      | .error err => pure ((acc.1, some err), false)
      | .ok blk => do
          let page ← acc.1.addNode m.parent blk
          pure ((page, none), true)

/-- The children of the document that is rendered. -/
def hydrateChildren (h : Hydration β) (fuel : Nat) (tree : TreeCRDT) :
    Outcome (Except String (List (BlockNode β))) := do
  let vt ← tree.mutate fuel
  let (page, err) ← vt.walkDFT fuel h.hydrateMove (.empty, none)
  match err with
  | some err => pure (.error err)
  | none => pure (.ok page.message)

/-- The block has some state. -/
def HasContent (h : Hydration β) (block : String) : Prop :=
  (h.state.getWithOrigin ["blocks", block]).isSome

/-- The message of a block, when its state can be decoded. -/
def content (h : Hydration β) (block : String) : Option (Block β) :=
  match h.state.getWithOrigin ["blocks", block] with
  | some (.map v, origin) => (blockFromMap h.unmarshal block (h.revision origin) v).toOption
  | _ => none

end Hydration

namespace TreeMutation

/-- The moves in the order of the walk. -/
def visited (fuel : Nat) (vt : TreeMutation) : Outcome (List Move) :=
  vt.walkDFT fuel listNode []

/-- The move is visible, and so are the blocks above it up to the root. -/
inductive Reached (vt : TreeMutation) : Move → Prop where
  | top {m : Move} (member : m ∈ vt.visibleUnder "") : Reached vt m
  | under {above m : Move} (reached : Reached vt above)
      (member : m ∈ vt.visibleUnder above.block) : Reached vt m

/-- The move is reached through blocks with content, and its block has content. -/
inductive Filled (h : Hydration β) (vt : TreeMutation) : Move → Prop where
  | top {m : Move} (member : m ∈ vt.visibleUnder "") (content : h.HasContent m.block) :
      Filled h vt m
  | under {above m : Move} (filled : Filled h vt above)
      (member : m ∈ vt.visibleUnder above.block) (content : h.HasContent m.block) :
      Filled h vt m

end TreeMutation

/-- The node is that of the move: the same block, below the same parent. -/
def RendersMove (h : Hydration β) (m : Move) (node : String × Block β) : Prop :=
  node.1 = m.parent ∧ h.content m.block = some node.2

/--
The walk is finite and sees every block once.  The document returned has the blocks with
content whose ancestors all have content, each under its parent, in the order of the walk.
-/
def RendersTree (h : Hydration β) (tree : TreeCRDT) : Prop :=
  ∃ vt walk forest, Converges (fun fuel => tree.mutate fuel) (.ok vt) ∧
    Converges (fun fuel => vt.visited fuel) (.ok walk) ∧
    (walk.map Move.block).Nodup ∧
    Converges (fun fuel => h.hydrateChildren fuel tree) (.ok (.ok forest)) ∧
    ∃ shown, shown.Sublist walk ∧ (∀ m, m ∈ shown ↔ TreeMutation.Filled h vt m) ∧
      List.Forall₂ (RendersMove h) shown (placedAll "" forest)

/-- A block with content can be decoded and appended to its parent. -/
structure Appendable (h : Hydration β) (m : Move) : Prop where
  decoded : h.HasContent m.block → (h.content m.block).isSome
  parent : h.HasContent m.block → m.parent = "" ∨ h.HasContent m.parent

/-! ## What the nodes hold -/

/-- Where the nodes with a given parent are. -/
def positions (entries : List (String × Block β)) (label : String) : List Nat :=
  (entries.zipIdx.filter fun item => item.1.1 = label).map Prod.snd

section Assembly

variable {entries stack placed : List (String × Block β)} {page : Assembly β} {blk : Block β}
variable {parent label : String}

/-- One entry more has its position at the end. -/
theorem positions_append (entry : String × Block β) :
    positions (entries ++ [entry]) label =
      positions entries label ++ if entry.1 = label then [entries.length] else [] := by
  rw [positions, positions, List.zipIdx_append, List.filter_append, List.map_append]
  congr 1
  by_cases under : entry.1 = label <;> simp [under]

theorem positions_eq_nil (leaf : ∀ entry ∈ entries, entry.1 ≠ label) :
    positions entries label = [] := by
  rw [positions, List.map_eq_nil_iff, List.filter_eq_nil_iff]
  intro item member
  simpa using leaf item.1 (List.mem_of_getElem? (List.mem_zipIdx_iff_getElem?.mp member))

/-- The positions point to the nodes with the given parent, in order. -/
theorem positions_spec (entries : List (String × Block β)) (label : String) :
    List.Forall₂ (fun entry child => entries[child]? = some entry)
      (entries.filter fun entry => entry.1 = label) (positions entries label) := by
  have listed : (entries.filter fun entry => entry.1 = label) =
      (entries.zipIdx.filter fun item => item.1.1 = label).map Prod.fst := by
    conv_lhs => rw [← List.zipIdx_map_fst 0 entries]
    rw [List.filter_map]
    exact congrArg _ (List.filter_congr fun item _ => rfl)
  rw [listed, positions, List.forall₂_map_left_iff, List.forall₂_map_right_iff,
    List.forall₂_same]
  intro item member
  exact List.mem_zipIdx_iff_getElem?.mp (List.mem_filter.mp member).1

/-- The nodes were placed as the entries say. -/
structure Assembly.Holds (entries : List (String × Block β)) (page : Assembly β) : Prop where
  nodes_eq : page.nodes = entries.map fun entry => ⟨entry.2, positions entries entry.2.id⟩
  children_eq : page.children = positions entries ""
  blockMap_iff : ∀ {block child}, page.blockMap block = some child ↔
    ∃ entry, entries[child]? = some entry ∧ entry.2.id = block
  named : ∀ entry ∈ entries, entry.2.id ≠ ""

namespace Assembly

theorem empty_holds : Holds [] (empty : Assembly β) where
  nodes_eq := rfl
  children_eq := rfl
  blockMap_iff := by simp [empty]
  named := by simp

/-- A new node, and its pointer in the node of its parent. -/
def withChild (page : Assembly β) (parent : String) (blk : Block β) : List (NodeCell β) :=
  (page.nodes ++ [NodeCell.mk blk []]).map fun cell =>
    { cell with children := cell.children ++
        if cell.block.id = parent then [page.nodes.length] else [] }

/-- The nodes of the entries and a new one. -/
theorem Holds.withChild_eq (holds : page.Holds entries)
    (leaf : ∀ entry ∈ entries, entry.1 ≠ blk.id) (differs : parent ≠ blk.id) :
    page.withChild parent blk = (entries ++ [(parent, blk)]).map fun entry =>
      (⟨entry.2, positions (entries ++ [(parent, blk)]) entry.2.id⟩ : NodeCell β) := by
  have count : page.nodes.length = entries.length := by simp [holds.nodes_eq]
  rw [withChild, List.map_append, List.map_append, count, holds.nodes_eq, List.map_map]
  congr 1
  · refine List.map_congr_left fun entry _ => ?_
    simp [positions_append, eq_comm]
  · simp [positions_append, positions_eq_nil leaf, differs, differs.symm]

/-- Changing the node at one position changes the nodes that only it is like. -/
theorem modify_eq_map {γ : Type} {items : List γ} {index : Nat} {change image : γ → γ}
    (alike : ∀ position item, items[position]? = some item →
      image item = if index = position then change item else item) :
    items.modify index change = items.map image := by
  apply List.ext_getElem?
  intro position
  rw [List.getElem?_modify, List.getElem?_map]
  cases found : items[position]? with
  | none => rfl
  | some item =>
      rw [Option.map_some, alike position item found]
      by_cases here : index = position <;> simp [here]

/-- The nodes by block, with a new block at the end. -/
theorem Holds.blockMap_concat (holds : page.Holds entries)
    (fresh : ∀ entry ∈ entries, entry.2.id ≠ blk.id) {block : String} {child : Nat} :
    Function.update page.blockMap blk.id (some page.nodes.length) block = some child ↔
      ∃ entry, (entries ++ [(parent, blk)])[child]? = some entry ∧ entry.2.id = block := by
  have count : page.nodes.length = entries.length := by simp [holds.nodes_eq]
  rw [count]
  rcases lt_trichotomy child entries.length with before | rfl | after
  · rw [List.getElem?_append_left before]
    by_cases same : block = blk.id
    · subst same
      rw [Function.update_self]
      constructor
      · rintro ⟨⟩
        exact absurd before (lt_irrefl _)
      · rintro ⟨entry, found, same⟩
        exact absurd same (fresh entry (List.mem_of_getElem? found))
    · rw [Function.update_of_ne same, holds.blockMap_iff]
  · rw [List.getElem?_concat_length]
    by_cases same : block = blk.id
    · simp [same]
    · rw [Function.update_of_ne same, holds.blockMap_iff]
      simp [Ne.symm same]
  · rw [List.getElem?_eq_none (by simp; omega)]
    by_cases same : block = blk.id
    · subst same
      rw [Function.update_self]
      simp [after.ne]
    · rw [Function.update_of_ne same, holds.blockMap_iff, List.getElem?_eq_none after.le]

/-- The nodes are those of the entries, and a new one. -/
theorem Holds.node_cases (holds : page.Holds entries) {position : Nat} {cell : NodeCell β}
    (found : (page.nodes ++ [⟨blk, []⟩])[position]? = some cell) :
    (page.blockMap cell.block.id = some position ∧ cell.block.id ≠ "") ∨
      position = page.nodes.length ∧ cell.block = blk := by
  have count : page.nodes.length = entries.length := by simp [holds.nodes_eq]
  rcases lt_or_ge position page.nodes.length with before | after
  · rw [List.getElem?_append_left before, holds.nodes_eq, List.getElem?_map] at found
    rcases Option.map_eq_some_iff.mp found with ⟨entry, isEntry, rfl⟩
    exact .inl ⟨holds.blockMap_iff.mpr ⟨entry, isEntry, rfl⟩,
      holds.named entry (List.mem_of_getElem? isEntry)⟩
  · rw [List.getElem?_append_right after] at found
    rcases List.getElem?_eq_some_iff.mp found with ⟨short, isCell⟩
    simp only [List.length_singleton] at short
    refine .inr ⟨by omega, ?_⟩
    rw [← isCell]
    simp

/-- Placing a block fills in its node, and notes it. -/
theorem Holds.addNode_eq (holds : page.Holds entries) (named : blk.id ≠ "")
    (fresh : ∀ entry ∈ entries, entry.2.id ≠ blk.id)
    (known : parent = "" ∨ ∃ entry ∈ entries, entry.2.id = parent) :
    page.addNode parent blk = .ok {
      children := page.children ++ if parent = "" then [page.nodes.length] else []
      nodes := page.withChild parent blk
      blockMap := Function.update page.blockMap blk.id (some page.nodes.length) } := by
  by_cases top : parent = ""
  · subst top
    have same : page.withChild "" blk = page.nodes ++ [⟨blk, []⟩] := by
      refine (List.map_congr_left fun cell member => ?_).trans (List.map_id _)
      rcases List.getElem?_of_mem member with ⟨position, found⟩
      have cellNamed : cell.block.id ≠ "" := by
        rcases holds.node_cases found with ⟨-, cellNamed⟩ | ⟨-, rfl⟩
        · exact cellNamed
        · exact named
      simp [cellNamed]
    simp [Assembly.addNode, appendChild, same]
  · rcases known with unnamed | ⟨above, isAbove, rfl⟩
    · exact absurd unnamed top
    rcases List.getElem?_of_mem isAbove with ⟨index, found⟩
    have isIndex : page.blockMap above.2.id = some index :=
      holds.blockMap_iff.mpr ⟨above, found, rfl⟩
    have here : ∀ position cell, (page.nodes ++ [⟨blk, []⟩])[position]? = some cell →
        (cell.block.id = above.2.id ↔ index = position) := by
      intro position cell isCell
      rcases holds.node_cases isCell with ⟨noted, -⟩ | ⟨atEnd, rfl⟩
      · constructor
        · intro same
          rw [same, isIndex] at noted
          exact Option.some.inj noted
        · rintro rfl
          rcases holds.blockMap_iff.mp noted with ⟨entry, isEntry, same⟩
          rw [← same, Option.some.inj (isEntry.symm.trans found)]
      · constructor
        · exact fun same => absurd same.symm (fresh above isAbove)
        · intro same
          have short := (List.getElem?_eq_some_iff.mp found).1
          simp [holds.nodes_eq, ← same] at atEnd
          omega
    have modified : (page.nodes ++ [NodeCell.mk blk []]).modify index (fun cell =>
        { cell with children := cell.children ++ [page.nodes.length] }) =
          page.withChild above.2.id blk := by
      refine modify_eq_map fun position cell isCell => ?_
      by_cases isHere : index = position
      · simp [isHere, (here position cell isCell).mpr isHere]
      · simp [isHere, mt (here position cell isCell).mp isHere]
    simp [Assembly.addNode, appendChild, top, isIndex, modified]

/-- A new block is placed under a block that is there. -/
theorem Holds.addNode (holds : page.Holds entries) (named : blk.id ≠ "")
    (fresh : ∀ entry ∈ entries, entry.2.id ≠ blk.id)
    (leaf : ∀ entry ∈ entries, entry.1 ≠ blk.id)
    (known : parent = "" ∨ ∃ entry ∈ entries, entry.2.id = parent) :
    ∃ page', page.addNode parent blk = .ok page' ∧ page'.Holds (entries ++ [(parent, blk)]) := by
  have differs : parent ≠ blk.id := by
    rintro rfl
    rcases known with unnamed | ⟨entry, member, same⟩
    · exact named unnamed
    · exact fresh entry member same
  refine ⟨_, holds.addNode_eq named fresh known, holds.withChild_eq leaf differs, ?_,
    holds.blockMap_concat fresh, ?_⟩
  · simp [positions_append, holds.children_eq, holds.nodes_eq]
  · intro entry member
    rcases List.mem_append.mp member with old | new
    · exact holds.named entry old
    · exact List.mem_singleton.mp new ▸ named

/-- Following the pointers of siblings gives the entries that are walked from them. -/
theorem Holds.follow (holds : page.Holds entries) {depth : Nat} {children : List Nat}
    (walks : Walks (fun entry => entries.filter fun other => other.1 = entry.2.id) stack placed)
    (short : placed.length ≤ depth) (under : ∀ entry ∈ stack, entry.1 = label)
    (point : List.Forall₂ (fun entry child => entries[child]? = some entry) stack children) :
    placedAll label (Assembly.follow page.nodes depth children) = placed := by
  induction depth generalizing stack placed children label with
  | zero =>
      cases walks with
      | nil => simp [Assembly.follow, placedAll]
      | cons rest => cases short
  | succ depth deeper =>
      induction point generalizing placed with
      | nil =>
          cases walks
          simp [Assembly.follow, placedAll]
      | @cons entry child stack children found _ later =>
          cases walks with
          | cons rest =>
              rcases rest.of_append with ⟨below, beside, rfl, inside, outside⟩
              simp only [List.length_cons, List.length_append] at short
              have cell : page.nodes[child]? =
                  some ⟨entry.2, positions entries entry.2.id⟩ := by
                rw [holds.nodes_eq, List.getElem?_map, found]
                rfl
              have sameLabel : entry.1 = label := under entry List.mem_cons_self
              have shape : Assembly.follow page.nodes (depth + 1) (child :: children) =
                  .mk entry.2 (Assembly.follow page.nodes depth (positions entries entry.2.id)) ::
                    Assembly.follow page.nodes (depth + 1) children := by
                simp [Assembly.follow, cell]
              have kids := deeper inside (by omega)
                (fun other member => by simpa using (List.mem_filter.mp member).2)
                (positions_spec entries entry.2.id)
              have siblings := later outside (by omega)
                fun other member => under other (List.mem_cons_of_mem _ member)
              rw [shape, placedAll, BlockNode.placed, kids, siblings, ← sameLabel]
              rfl

/-- The finished message has the entries, when these are in the order of a walk. -/
theorem Holds.message (holds : page.Holds entries)
    (walks : Walks (fun entry => entries.filter fun other => other.1 = entry.2.id)
      (entries.filter fun entry => entry.1 = "") entries) :
    placedAll "" page.message = entries := by
  apply holds.follow walks
  · simp [holds.nodes_eq]
  · intro entry member
    simpa using (List.mem_filter.mp member).2
  · rw [holds.children_eq]
    exact positions_spec entries ""

end Assembly

end Assembly

/-! ## One step of the walk -/

namespace Hydration

variable {h : Hydration β} {m : Move} {block : String} {blk : Block β}
variable {page page' : Assembly β} {walk items : List Move}

/-- A block has content if a map is stored for it that can be decoded. -/
theorem content_eq_some_iff : h.content block = some blk ↔ ∃ v origin,
    h.state.getWithOrigin ["blocks", block] = some (.map v, origin) ∧
      blockFromMap h.unmarshal block (h.revision origin) v = .ok blk := by
  rw [content]
  constructor
  · intro found
    split at found
    · next v origin isState =>
      refine ⟨v, origin, isState, ?_⟩
      cases decoded : blockFromMap h.unmarshal block (h.revision origin) v with
      | error err => simp [decoded, Except.toOption] at found
      | ok blk => simpa [decoded, Except.toOption] using found
    · cases found
  · rintro ⟨v, origin, isState, decoded⟩
    simp [isState, decoded, Except.toOption]

/-- The content of a block has its identifier. -/
theorem content_id (found : h.content block = some blk) : blk.id = block := by
  rcases content_eq_some_iff.mp found with ⟨v, origin, -, decoded⟩
  rw [blockFromMap] at decoded
  cases unmarshalled : h.unmarshal v with
  | error err => simp [unmarshalled, Except.map] at decoded
  | ok body =>
      rw [unmarshalled] at decoded
      cases decoded
      exact rfl

theorem hasContent_of_content (found : h.content block = some blk) : h.HasContent block := by
  rcases content_eq_some_iff.mp found with ⟨v, origin, isState, -⟩
  exact Option.isSome_of_eq_some isState

/-- A block whose state can be decoded is appended to its parent. -/
theorem hydrateMove_of_content (found : h.content m.block = some blk) :
    h.hydrateMove (page, none) m =
      page.addNode m.parent blk >>= fun page => pure ((page, none), true) := by
  rcases content_eq_some_iff.mp found with ⟨v, origin, isState, decoded⟩
  simp [hydrateMove, isState, assertType, Value.asMap, decoded]

/-- A block without state is skipped. -/
theorem hydrateMove_of_empty (empty : ¬ h.HasContent m.block) :
    h.hydrateMove (page, none) m = .ok ((page, none), true) := by
  rw [HasContent, Bool.not_eq_true, Option.isSome_eq_false_iff, Option.isNone_iff_eq_none] at empty
  simp [hydrateMove, empty]

/-- A step that returns stops with an error, skips the block, or places it. -/
theorem hydrateMove_cases {err : Option String} {more : Bool}
    (done : h.hydrateMove (page, none) m = .ok ((page', err), more)) :
    more = false ∧ err ≠ none ∨ more = true ∧ err = none ∧
      (page' = page ∧ ¬ h.HasContent m.block ∨
        ∃ blk, h.content m.block = some blk ∧ page.addNode m.parent blk = .ok page') := by
  by_cases hasContent : h.HasContent m.block
  · rcases Option.isSome_iff_exists.mp hasContent with ⟨⟨mm, origin⟩, isState⟩
    rw [hydrateMove, isState] at done
    rcases bind_eq_ok.mp done with ⟨v, isMap, rest⟩
    obtain rfl : mm = .map v := by
      cases mm <;> simp [assertType, Value.asMap, panicWith] at isMap
      rw [isMap]
    cases decoded : blockFromMap h.unmarshal m.block (h.revision origin) v with
    | error err =>
        simp only [decoded] at rest
        cases rest
        exact .inl ⟨rfl, by simp⟩
    | ok blk =>
        simp only [decoded] at rest
        rcases bind_eq_ok.mp rest with ⟨next, added, last⟩
        cases last
        exact .inr ⟨rfl, rfl,
          .inr ⟨blk, content_eq_some_iff.mpr ⟨v, origin, isState, decoded⟩, added⟩⟩
  · rw [hydrateMove_of_empty hasContent] at done
    cases done
    exact .inr ⟨rfl, rfl, .inl ⟨rfl, hasContent⟩⟩

/-- A node is appended only to one that is there. -/
theorem addNode_eq_ok {parent : String} (added : page.addNode parent blk = .ok page') :
    (parent = "" ∨ (page.blockMap parent).isSome) ∧
      page'.blockMap = Function.update page.blockMap blk.id (some page.nodes.length) := by
  rw [Assembly.addNode] at added
  rcases bind_eq_ok.mp added with ⟨next, appended, last⟩
  cases last
  rw [Assembly.appendChild] at appended
  split at appended
  · next top =>
    cases appended
    exact ⟨.inl top, rfl⟩
  · split at appended
    · simp [panicWith] at appended
    · next index isIndex =>
      cases appended
      exact ⟨.inr (Option.isSome_of_eq_some isIndex), rfl⟩

/-- What is placed for a move. -/
def entry (h : Hydration β) (m : Move) : Option (String × Block β) :=
  (h.content m.block).map fun blk => (m.parent, blk)

/-- A placed entry has the parent and the block of its move, and its content. -/
theorem entry_eq_some {e : String × Block β} (placed : h.entry m = some e) :
    e.1 = m.parent ∧ e.2.id = m.block ∧ h.content m.block = some e.2 := by
  rcases Option.map_eq_some_iff.mp placed with ⟨blk, found, rfl⟩
  exact ⟨rfl, content_id found, found⟩

/-- A walk that returns without an error found the parents of all blocks with content. -/
theorem appendable_of_visit
    (noted : ∀ block, (page.blockMap block).isSome → h.HasContent block)
    (done : visit h.hydrateMove items (page, none) = .ok (page', none)) :
    ∀ m ∈ items, Appendable h m := by
  induction items generalizing page with
  | nil => simp
  | cons m items induction =>
      rw [visit] at done
      rcases bind_eq_ok.mp done with ⟨⟨⟨next, err⟩, more⟩, stepped, rest⟩
      rcases hydrateMove_cases stepped with ⟨rfl, failed⟩ | ⟨rfl, rfl, skipped | placed⟩
      · cases rest
        exact absurd rfl failed
      · rcases skipped with ⟨rfl, empty⟩
        intro x member
        rcases List.mem_cons.mp member with rfl | later
        · exact ⟨fun hasContent => absurd hasContent empty,
            fun hasContent => absurd hasContent empty⟩
        · exact induction noted rest x later
      · rcases placed with ⟨blk, found, added⟩
        rcases addNode_eq_ok added with ⟨known, blockMap_eq⟩
        intro x member
        rcases List.mem_cons.mp member with rfl | later
        · exact ⟨fun _ => Option.isSome_of_eq_some found, fun _ => known.imp_right (noted _)⟩
        · refine induction (fun block isNoted => ?_) rest x later
          rw [blockMap_eq] at isNoted
          by_cases same : block = blk.id
          · rw [same, content_id found]
            exact hasContent_of_content found
          · rw [Function.update_of_ne same] at isNoted
            exact noted block isNoted

/-- The walk places what it is to place, when parents come before their children. -/
theorem visit_hydrateMove (front : List Move) (holds : page.Holds (front.filterMap h.entry))
    (named : ∀ m ∈ front ++ items, m.block ≠ "")
    (distinct : ((front ++ items).map Move.block).Nodup)
    (appendable : ∀ m ∈ front ++ items, Appendable h m)
    (before : ∀ seen m rest, front ++ items = seen ++ m :: rest →
      m.parent = "" ∨ ∃ above ∈ seen, above.block = m.parent) :
    ∃ page', visit h.hydrateMove items (page, none) = .ok (page', none) ∧
      page'.Holds ((front ++ items).filterMap h.entry) := by
  induction items generalizing page front with
  | nil => exact ⟨page, rfl, by simpa using holds⟩
  | cons m items induction =>
      have whole : front ++ m :: items = (front ++ [m]) ++ items := by simp
      have isNext : m ∈ front ++ m :: items := by simp
      have goOn : ∀ next, next.Holds ((front ++ [m]).filterMap h.entry) →
          h.hydrateMove (page, none) m = .ok ((next, none), true) →
          ∃ page', visit h.hydrateMove (m :: items) (page, none) = .ok (page', none) ∧
            page'.Holds ((front ++ m :: items).filterMap h.entry) := by
        intro next holds' stepped
        rw [visit_cons_of_more stepped, whole]
        rw [whole] at named distinct appendable before
        exact induction (front ++ [m]) holds' named distinct appendable before
      by_cases hasContent : h.HasContent m.block
      · rcases Option.isSome_iff_exists.mp ((appendable m isNext).decoded hasContent) with
          ⟨blk, found⟩
        have differs : ∀ x ∈ front, x.block ≠ m.block := by
          intro x member
          rw [List.map_append, List.nodup_append] at distinct
          exact distinct.2.2 _ (List.mem_map_of_mem member) _ List.mem_cons_self
        have isBlock : blk.id = m.block := content_id found
        have added : ∃ next, page.addNode m.parent blk = .ok next ∧
            next.Holds (front.filterMap h.entry ++ [(m.parent, blk)]) := by
          apply holds.addNode
          · rw [isBlock]
            exact named m isNext
          · intro e member
            rcases List.mem_filterMap.mp member with ⟨x, inFront, placed⟩
            rw [(entry_eq_some placed).2.1, isBlock]
            exact differs x inFront
          · -- A child of this block would have come after a move of this block.
            intro e member
            rcases List.mem_filterMap.mp member with ⟨x, inFront, placed⟩
            rw [(entry_eq_some placed).1, isBlock]
            intro isChild
            rcases List.append_of_mem inFront with ⟨seen, rest, rfl⟩
            rcases before seen x (rest ++ m :: items) (by simp) with top | ⟨above, member, same⟩
            · exact named m isNext (isChild.symm.trans top)
            · exact differs above (List.mem_append_left _ member) (same.trans isChild)
          · rcases before front m items rfl with top | ⟨above, inFront, same⟩
            · exact .inl top
            · rcases (appendable m isNext).parent hasContent with top | parentContent
              · exact .inl top
              · have decoded := (appendable above (List.mem_append_left _ inFront)).decoded
                  (same ▸ parentContent)
                rcases Option.isSome_iff_exists.mp decoded with ⟨aboveBlk, aboveFound⟩
                refine .inr ⟨(above.parent, aboveBlk), ?_, (content_id aboveFound).trans same⟩
                exact List.mem_filterMap.mpr ⟨above, inFront, by simp [entry, aboveFound]⟩
        rcases added with ⟨next, added, holds'⟩
        apply goOn next
        · rw [List.filterMap_append]
          simpa [entry, found] using holds'
        · rw [hydrateMove_of_content found, added]
          rfl
      · apply goOn page
        · have skipped : h.entry m = none := by
            rw [entry, Option.map_eq_none_iff, Option.eq_none_iff_forall_ne_some]
            exact fun blk found => hasContent (hasContent_of_content found)
          rw [List.filterMap_append]
          simpa [skipped] using holds
        · exact hydrateMove_of_empty hasContent

end Hydration

/-! ## The visible forest -/

namespace TreeMutation

variable {K : Fracdex} {vt : TreeMutation} {m : Move} {walk : List Move} {label : String}

/-- The visible moves of named blocks as a forest under the root. -/
def namedForest (vt : TreeMutation) (index : TreeIndex K vt.tree) (one : vt.OneVisible) :
    Forest Move String where
  below label := (vt.visibleUnder label).filter fun m => m.block ≠ ""
  name := Move.block
  above := Move.parent
  root := ""
  nodes := vt.tree.filter fun m => m ∉ vt.dirtyInvisibleMoves ∧ m.block ≠ ""
  below_above := fun member => (mem_visibleUnder.mp (List.mem_filter.mp member).1).2.1
  below_mem := by
    intro label m member
    rcases List.mem_filter.mp member with ⟨under, named⟩
    rcases mem_visibleUnder.mp under with ⟨inTree, -, shown⟩
    simpa [inTree, shown] using named
  below_nodup := fun label => ((index.nodup label).filter _).filter _
  name_injective := by
    intro m m' isNode isNode'
    rcases List.mem_filter.mp isNode with ⟨inTree, shown⟩
    rcases List.mem_filter.mp isNode' with ⟨inTree', shown'⟩
    simp only [decide_eq_true_eq] at shown shown'
    exact one m inTree m' inTree' shown.1 shown'.1
  name_ne_root := by
    intro m isNode
    rcases List.mem_filter.mp isNode with ⟨-, shown⟩
    simp only [decide_eq_true_eq] at shown
    exact shown.2

section Walk

variable {index : TreeIndex K vt.tree} {one : vt.OneVisible}

theorem reached_of_trail {path : List Move} (trail : (vt.namedForest index one).Trail path) :
    ∀ m ∈ path, vt.Reached m := by
  induction trail with
  | root member =>
      simpa using Reached.top (List.mem_filter.mp member).1
  | down member _ induction =>
      intro m inPath
      rcases List.mem_cons.mp inPath with rfl | above
      · exact .under (induction _ List.mem_cons_self) (List.mem_filter.mp member).1
      · exact induction m above

/-- What is walked is reached from the root. -/
theorem reached_of_mem_walk (member : m ∈ (vt.namedForest index one).walk) : vt.Reached m := by
  rcases Forest.exists_trail_of_mem_walk member with ⟨path, trail⟩
  exact reached_of_trail trail m List.mem_cons_self

/-- When all reached blocks have names the walk is that of the forest. -/
theorem walks_of_named (named : ∀ m, vt.Reached m → m.block ≠ "") :
    Walks (fun m => vt.visibleChildren m.block) (vt.visibleChildren "")
      (vt.namedForest index one).walk := by
  have all : ∀ label, (∀ m ∈ vt.visibleUnder label, vt.Reached m) →
      vt.visibleChildren label = (vt.namedForest index one).below label := by
    intro label reached
    rw [visibleChildren_eq index]
    exact (List.filter_eq_self.mpr fun m member => by
      simpa using named m (reached m member)).symm
  rw [all "" fun m member => .top member]
  refine (Forest.walks _).congr fun m member => ?_
  exact all m.block fun child isChild => .under (reached_of_mem_walk member) isChild

end Walk

section Visited

variable (index : TreeIndex K vt.tree)

include index

/-- What is reached from the root is walked. -/
theorem mem_of_reached
    (walks : Walks (fun m => vt.visibleChildren m.block) (vt.visibleChildren "") walk)
    (reached : vt.Reached m) : m ∈ walk := by
  induction reached with
  | top member =>
      rw [← visibleChildren_eq index] at member
      exact walks.mem_of_mem_stack member
  | under _ member induction =>
      rw [← visibleChildren_eq index] at member
      exact walks.mem_of_mem_kids induction member

/-- Below a block without a name the walk would start again. -/
theorem named_of_walks
    (walks : Walks (fun m => vt.visibleChildren m.block) (vt.visibleChildren "") walk)
    (reached : vt.Reached m) : m.block ≠ "" := by
  intro unnamed
  exact walks.kids_ne_stack (mem_of_reached index walks reached)
    (congrArg vt.visibleChildren unnamed)

end Visited

/-- The visit of a tree lists its walk. -/
theorem visited_converges
    (walks : Walks (fun m => vt.visibleChildren m.block) (vt.visibleChildren "") walk) :
    Converges (fun fuel => vt.visited fuel) (.ok walk) := by
  refine ⟨walk.length, fun fuel large => ?_⟩
  exact (walks.walkLoop_eq listNode large []).trans (visit_listNode walk [])

/-- What the visit lists is a walk of the tree. -/
theorem walks_of_visited (returned : Converges (fun fuel => vt.visited fuel) (.ok walk)) :
    Walks (fun m => vt.visibleChildren m.block) (vt.visibleChildren "") walk := by
  rcases returned with ⟨fuel, enough⟩
  rcases exists_walks (enough fuel le_rfl) with ⟨seen, same, walks⟩
  rw [List.nil_append] at same
  exact same ▸ walks

end TreeMutation

/-! ## The rendered document -/

section Rendered

open TreeMutation

variable {K : Fracdex} {h : Hydration β} {tree : TreeCRDT} {vt : TreeMutation} {m : Move}
variable {walk : List Move} {page : Assembly β}

/-- The reached blocks have names, and those with content can be appended. -/
structure Renderable (h : Hydration β) (vt : TreeMutation) : Prop where
  named : ∀ m, vt.Reached m → m.block ≠ ""
  appendable : ∀ m, vt.Reached m → Appendable h m

theorem filter_filterMap_entry (walk : List Move) (label : String) :
    ((walk.filterMap h.entry).filter fun e => e.1 = label) =
      (walk.filter fun m => m.parent = label).filterMap h.entry := by
  rw [List.filter_filterMap, List.filterMap_filter]
  refine List.filterMap_congr fun m _ => ?_
  cases placed : h.entry m with
  | none => simp
  | some e => simp [Option.filter, (Hydration.entry_eq_some placed).1]

/-- In a renderable document, what has content can be decoded. -/
theorem Renderable.content_isSome (renderable : Renderable h vt) (reached : vt.Reached m) :
    (h.content m.block).isSome ↔ h.HasContent m.block := by
  constructor
  · intro found
    rcases Option.isSome_iff_exists.mp found with ⟨blk, found⟩
    exact Hydration.hasContent_of_content found
  · exact (renderable.appendable m reached).decoded

/-- A child with content has a parent with content. -/
theorem Renderable.hasContent_above (renderable : Renderable h vt) {above : Move}
    (reached : vt.Reached above) (isChild : m ∈ vt.visibleUnder above.block)
    (hasContent : h.HasContent m.block) : h.HasContent above.block := by
  have parent_eq : m.parent = above.block := (mem_visibleUnder.mp isChild).2.1
  rcases (renderable.appendable m (.under reached isChild)).parent hasContent with top | found
  · exact absurd (parent_eq.symm.trans top) (renderable.named above reached)
  · exact parent_eq ▸ found

/-- The filled moves are the reached ones whose block has content. -/
theorem Renderable.filled_iff (renderable : Renderable h vt) :
    Filled h vt m ↔ vt.Reached m ∧ h.HasContent m.block := by
  constructor
  · intro filled
    induction filled with
    | top member content => exact ⟨.top member, content⟩
    | under _ member content induction => exact ⟨.under induction.1 member, content⟩
  · rintro ⟨reached, content⟩
    induction reached with
    | top member => exact .top member content
    | under reached member induction =>
        exact .under (induction (renderable.hasContent_above reached member content)) member
          content

/-- What a walk places is itself in the order of a walk. -/
theorem entries_walk (index : TreeIndex K vt.tree) (one : vt.OneVisible)
    (renderable : Renderable h vt) (isWalk : (vt.namedForest index one).walk = walk) :
    Walks (fun e => (walk.filterMap h.entry).filter fun other => other.1 = e.2.id)
      ((walk.filterMap h.entry).filter fun e => e.1 = "") (walk.filterMap h.entry) := by
  subst isWalk
  have under : ∀ label, (label = "" ∨ ∃ m ∈ (vt.namedForest index one).walk, m.block = label) →
      (((vt.namedForest index one).walk.filterMap h.entry).filter fun e => e.1 = label) =
        ((vt.namedForest index one).below label).filterMap h.entry := by
    intro label known
    rw [filter_filterMap_entry]
    exact congrArg _ ((vt.namedForest index one).walk_filter_above known)
  rw [under "" (.inl rfl)]
  apply (Forest.walks (vt.namedForest index one)).filterMap
  · intro m member e placed
    rw [(Hydration.entry_eq_some placed).2.1]
    exact under m.block (.inr ⟨m, member, rfl⟩)
  · -- Below a block without content there is no block with content.
    intro m member empty
    have reached := reached_of_mem_walk member
    rw [List.filterMap_eq_nil_iff]
    intro child isKid
    cases placed : h.entry child with
    | none => rfl
    | some e =>
        have content := Hydration.hasContent_of_content (Hydration.entry_eq_some placed).2.2
        have found := (renderable.content_isSome reached).mpr
          (renderable.hasContent_above reached (List.mem_filter.mp isKid).1 content)
        rw [Hydration.entry, Option.map_eq_none_iff] at empty
        simp [empty] at found

/-- The nodes that are placed render the moves whose state can be decoded. -/
theorem rendersMove_entries (walk : List Move) :
    List.Forall₂ (RendersMove h) (walk.filter fun m => (h.content m.block).isSome)
      (walk.filterMap h.entry) := by
  induction walk with
  | nil => exact .nil
  | cons m walk induction =>
      cases found : h.content m.block with
      | none =>
          have skipped : h.entry m = none := by simp [Hydration.entry, found]
          rw [List.filterMap_cons_none skipped, List.filter_cons_of_neg (by simp [found])]
          exact induction
      | some blk =>
          have placed : h.entry m = some (m.parent, blk) := by simp [Hydration.entry, found]
          rw [List.filterMap_cons_some placed, List.filter_cons_of_pos (by simp [found])]
          exact .cons ⟨rfl, found⟩ induction

/-- A walk without errors over a tree whose blocks have names. -/
theorem hydrateChildren_eq {fuel : Nat} (mutated : tree.mutate fuel = .ok vt)
    (walks : Walks (fun m => vt.visibleChildren m.block) (vt.visibleChildren "") walk)
    (large : walk.length ≤ fuel) :
    h.hydrateChildren fuel tree = visit h.hydrateMove walk (.empty, none) >>= fun acc =>
      match acc.2 with
      | some err => pure (.error err)
      | none => pure (.ok acc.1.message) := by
  have walked : vt.walkDFT fuel h.hydrateMove (.empty, none) =
      visit h.hydrateMove walk (.empty, none) := walks.walkLoop_eq _ large _
  rw [Hydration.hydrateChildren, mutated, ok_bind, walked]

/-- When nothing is missing the document is rendered. -/
theorem Renderable.rendersTree (renderable : Renderable h vt)
    (mutated : Converges (fun fuel => tree.mutate fuel) (.ok vt)) (index : TreeIndex K vt.tree)
    (one : vt.OneVisible) : RendersTree h tree := by
  have walks : Walks (fun m => vt.visibleChildren m.block) (vt.visibleChildren "")
      (vt.namedForest index one).walk := walks_of_named renderable.named
  have entriesWalk := entries_walk index one renderable rfl
  have reached : ∀ m ∈ (vt.namedForest index one).walk, vt.Reached m :=
    fun m member => reached_of_mem_walk member
  have distinct : ((vt.namedForest index one).walk.map Move.block).Nodup := by
    refine List.Nodup.map_on (fun m member m' member' same => ?_) (Forest.walk_nodup _)
    exact (vt.namedForest index one).name_injective (Forest.mem_nodes_of_mem_walk member)
      (Forest.mem_nodes_of_mem_walk member') same
  generalize (vt.namedForest index one).walk = walk at walks entriesWalk reached distinct
  have before : ∀ seen m rest, [] ++ walk = seen ++ m :: rest →
      m.parent = "" ∨ ∃ above ∈ seen, above.block = m.parent := by
    intro seen m rest split
    rcases walks.exists_parent split with isTop | ⟨above, earlier, isKid⟩
    · rw [visibleChildren_eq index] at isTop
      exact .inl (mem_visibleUnder.mp isTop).2.1
    · rw [visibleChildren_eq index] at isKid
      exact .inr ⟨above, earlier, (mem_visibleUnder.mp isKid).2.1.symm⟩
  have start : Assembly.empty.Holds ([].filterMap h.entry) := Assembly.empty_holds
  rcases Hydration.visit_hydrateMove [] start
      (fun m member => renderable.named m (reached m member)) distinct
      (fun m member => renderable.appendable m (reached m member)) before with
    ⟨page, visited, holds⟩
  rw [List.nil_append] at holds
  rcases mutated with ⟨enough, started⟩
  refine ⟨vt, walk, page.message, ⟨enough, started⟩, visited_converges walks, distinct,
    ⟨max enough walk.length, fun fuel large => ?_⟩,
    walk.filter fun m => (h.content m.block).isSome, List.filter_sublist, fun m => ?_, ?_⟩
  · have replayed := started fuel (le_trans (le_max_left _ _) large)
    exact (hydrateChildren_eq replayed walks (le_trans (le_max_right _ _) large)).trans
      (by rw [visited]; rfl)
  · rw [List.mem_filter, renderable.filled_iff]
    constructor
    · rintro ⟨member, found⟩
      exact ⟨reached m member, (renderable.content_isSome (reached m member)).mp found⟩
    · rintro ⟨isReached, content⟩
      exact ⟨mem_of_reached index walks isReached,
        (renderable.content_isSome isReached).mpr content⟩
  · rw [holds.message entriesWalk]
    exact rendersMove_entries walk

/--
The visible tree is rendered faithfully exactly when its moves can be replayed, its blocks
have names, and every block with content is at the top or below a block with content.
-/
theorem rendersTree_iff (received : Received K (fun _ => True) tree) :
    RendersTree h tree ↔
      ∃ vt, Converges (fun fuel => tree.mutate fuel) (.ok vt) ∧ Renderable h vt := by
  have valid := received.valid.1
  constructor
  · rintro ⟨vt, walk, forest, mutated, visited, -, hydrated, -⟩
    have walks := walks_of_visited visited
    have index : TreeIndex K vt.tree := by
      rcases mutated with ⟨fuel, enough⟩
      exact (mutate_kept valid (enough fuel le_rfl)).sound.index
    refine ⟨vt, mutated, fun m => named_of_walks index walks, fun m reached => ?_⟩
    rcases mutated with ⟨enough, mutated⟩
    rcases hydrated with ⟨enough', hydrated⟩
    have started := mutated (max (max enough enough') walk.length) (by simp)
    have returned := (hydrateChildren_eq started walks (by simp)).symm.trans
      (hydrated (max (max enough enough') walk.length) (by simp))
    rcases bind_eq_ok.mp returned with ⟨⟨page, err⟩, visited, last⟩
    cases err with
    | some err => cases last
    | none =>
        refine Hydration.appendable_of_visit ?_ visited m (mem_of_reached index walks reached)
        simp [Assembly.empty]
  · rintro ⟨vt, mutated, renderable⟩
    have kept : Kept K vt := by
      rcases mutated with ⟨fuel, enough⟩
      exact mutate_kept valid (enough fuel le_rfl)
    exact renderable.rendersTree mutated kept.sound.index kept.sound.oneVisible

end Rendered

/-! ## Sample documents -/

/-- A block that was created below another one. -/
def nestedBlocks : TreeCRDT :=
  oneBlock.withMove ⟨⟨"alice", 1, 1⟩, "b2", "b1", "", "", "a0"⟩

theorem nestedBlocks_received : Received sampleFracdex (fun _ => True) nestedBlocks :=
  .integrate ⟨⟨"alice", 1, 1⟩, "b2", "b1", "", ""⟩
    (.integrate firstBlock .new trivial rfl) trivial rfl

/-- The content of some blocks, written by Alice. -/
def contentOf (blocks : List String) : Outcome Map :=
  newMap.applyPatch 1 "alice"
    [("blocks", .map (blocks.map fun block =>
      (block, .map [("#map", .map [("text", .string block)])])))]

theorem contentOf_both : (contentOf ["b1", "b2"]).toOption.isSome := by decide +kernel

theorem contentOf_child : (contentOf ["b2"]).toOption.isSome := by decide +kernel

/-- Blocks are decoded to their JSON objects. -/
def sampleHydration (state : Map) : Hydration Object where
  unmarshal := .ok
  state := state
  origins := fun _ => "change"
  oldDraft := ""

theorem nestedBlocks_renderable : ∃ vt,
    Converges (fun fuel => nestedBlocks.mutate fuel) (.ok vt) ∧
      Renderable (sampleHydration ((contentOf ["b1", "b2"]).toOption.get contentOf_both)) vt := by
  have started : ∃ vt, (∀ fuel, nestedBlocks.mutate (fuel + 4) = .ok vt) ∧
      vt.visibleUnder "" = [⟨⟨"alice", 1, 0⟩, "b1", "", "", "", "a0"⟩] ∧
      vt.visibleUnder "b1" = [⟨⟨"alice", 1, 1⟩, "b2", "b1", "", "", "a0"⟩] ∧
      vt.visibleUnder "b2" = [] := ⟨_, fun _ => rfl, by decide, by decide, by decide⟩
  rcases started with ⟨vt, mutated, top, below, leaf⟩
  have reached : ∀ m, vt.Reached m → m = ⟨⟨"alice", 1, 0⟩, "b1", "", "", "", "a0"⟩ ∨
      m = ⟨⟨"alice", 1, 1⟩, "b2", "b1", "", "", "a0"⟩ := by
    intro m reached
    induction reached with
    | top member => exact .inl (by simpa [top] using member)
    | under _ member induction =>
        rcases induction with rfl | rfl
        · exact .inr (by simpa [below] using member)
        · simp [leaf] at member
  refine ⟨vt, .of_add 4 mutated, fun m isReached => ?_, fun m isReached => ?_⟩
  · rcases reached m isReached with rfl | rfl <;> decide
  · rcases reached m isReached with rfl | rfl
    · exact ⟨fun _ => by decide +kernel, fun _ => .inl rfl⟩
    · refine ⟨fun _ => by decide +kernel, fun _ => .inr ?_⟩
      change ((sampleHydration _).state.getWithOrigin ["blocks", "b1"]).isSome = true
      decide +kernel

theorem rendersTree_iff_nestedBlocks : RendersTree
    (sampleHydration ((contentOf ["b1", "b2"]).toOption.get contentOf_both)) nestedBlocks :=
  (rendersTree_iff nestedBlocks_received).mpr nestedBlocks_renderable

/-- A block with content below a block without content ends the walk with a panic. -/
theorem child_of_empty_block_panics :
    Converges (fun fuel => (sampleHydration
        ((contentOf ["b2"]).toOption.get contentOf_child)).hydrateChildren fuel nestedBlocks)
      (panicWith "BUG: no parent b1 was found yet while iterating") ∧
    ¬ RendersTree (sampleHydration ((contentOf ["b2"]).toOption.get contentOf_child))
      nestedBlocks := by
  have panics : Converges (fun fuel => (sampleHydration
      ((contentOf ["b2"]).toOption.get contentOf_child)).hydrateChildren fuel nestedBlocks)
      (panicWith "BUG: no parent b1 was found yet while iterating") := .of_add 4 fun _ => rfl
  refine ⟨panics, ?_⟩
  rintro ⟨vt, walk, forest, -, -, -, hydrated, -⟩
  have same := hydrated.unique panics
  cases same

end Mintter.Docmodel
