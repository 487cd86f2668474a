import Mintter.Crdt2.Merging
import Mintter.Foundation.OrderedTree

/-!
# Forgetting a state

`forgetState` deletes the nodes of a time and an origin; each of them is looked for in the tree by
its key.  The tree finds a node only as long as the nodes are in order, so here the map keeps its
nodes in a tree of any kind, which compares the paths as they read at the moment.

A separate patch leaves the nodes in order all the time, and then it is undone
(`forgetState_undoes`).  Where two fields share a cell of their array, the first node may stand on
the wrong side of an old one.
-/

namespace Mintter.Crdt2

open Mintter.Foundation

/-- The keys by which nodes are compared. -/
abbrev EntryKey := (Nat ×ₗ List String) ×ₗ (Int ×ₗ String)

/-- A map whose nodes are in a tree. -/
structure StoredMap (tree : OrderedTree MapNode) where
  arrays : Arrays String
  state : tree.Tree

namespace StoredMap

variable {tree : OrderedTree MapNode}

/-- A map without nodes, in an empty tree. -/
def new (tree : OrderedTree MapNode) : StoredMap tree := ⟨noArrays, tree.empty⟩

/-- The nodes as a scan lists them. -/
def view (m : StoredMap tree) : Map := ⟨m.arrays, tree.items m.state⟩

/-- Nodes are compared by their paths as they read now. -/
def less (m : StoredMap tree) : MapNode → MapNode → Bool :=
  byKey fun node => (m.view.read node).key

/-- Set a node, or replace the one with its key. -/
def setNode (m : StoredMap tree) (time : Int) (origin : String) (path : Slice)
    (valueType : MapValueType) (value : Value) : StoredMap tree :=
  { m with state := tree.set m.less ⟨path, time, origin, valueType, value⟩ m.state }

/-- Write one field below `path`; a nested object is queued. -/
def patchField (time : Int) (origin : String) (path : Slice)
    (acc : StoredMap tree × List Map.PatchItem) (field : String × Value) :
    Outcome (StoredMap tree × List Map.PatchItem) := do
  let (m, queue) := acc
  let (valueType, value, nested) ← unwrap field.2
  let (arrays, queue) := match nested with
    | some fields =>
        let (arrays, child) := path.append m.arrays field.1
        (arrays, queue ++ [Map.PatchItem.mk fields child])
    | none => (m.arrays, queue)
  let (arrays, leaf) := path.append arrays field.1
  pure (setNode { m with arrays := arrays } time origin leaf valueType value, queue)

/-- Write the fields of one pending object after the other. -/
def patchLoop (order : FieldOrder) (time : Int) (origin : String) :
    Nat → List Map.PatchItem → StoredMap tree → Outcome (StoredMap tree)
  | _, [], m => pure m
  | 0, _ :: _, _ => .error .outOfFuel
  | fuel + 1, cur :: queue, m => do
      let (m, queue) ← (order.fields fuel cur.m).foldlM
        (patchField time origin cur.path) (m, queue)
      patchLoop order time origin fuel queue m

/-- Apply a patch, visiting the fields of its objects in some order. -/
def applyPatchIn (order : FieldOrder) (m : StoredMap tree) (time : Int) (origin : String)
    (patch : Object) : Outcome (StoredMap tree) :=
  patchLoop order time origin (fieldObjects patch + 1) [⟨patch, .nil⟩] m

/-- A node that is not found is a bug. -/
def deleteNode (m : StoredMap tree) (n : MapNode) : Outcome (StoredMap tree) :=
  match tree.delete m.less n m.state with
  | some state => pure { m with state := state }
  | none => panicWith "BUG: failed to delete map node"

/-- Delete every node of a time and an origin. -/
def forgetState (m : StoredMap tree) (time : Int) (origin : String) :
    Outcome (StoredMap tree) :=
  let toDelete := (tree.items m.state).filter fun item =>
    item.time = time ∧ item.origin = origin
  toDelete.foldlM deleteNode m

/-! ## The tree and the sorted list -/

variable {m : StoredMap tree} {time : Int} {origin : String} {order : FieldOrder}

/-- The nodes are in order when their entries are. -/
theorem sorted_items (sorted : KeyedList.Sorted Entry.key m.view.entries) :
    KeyedList.Sorted (fun node => (m.view.read node).key) (tree.items m.state) := by
  rw [KeyedList.Sorted, Map.entries, List.pairwise_map] at sorted
  exact sorted

/-- Setting a node in the tree is setting it in the listed map. -/
theorem setNode_view (lawful : tree.Lawful EntryKey)
    (sorted : KeyedList.Sorted Entry.key m.view.entries) (path : Slice)
    (valueType : MapValueType) (value : Value) :
    (m.setNode time origin path valueType value).view =
      m.view.setNode time origin path valueType value :=
  congrArg (Map.mk m.arrays) (lawful.set _ m.state _ (sorted_items sorted))

/-- The field is written as in the sorted list, if this is in order. -/
theorem patchField_view (lawful : tree.Lawful EntryKey) {path : Slice}
    {field : String × Value} {valueType : MapValueType} {value : Value} {nested : Option Object}
    (stored : unwrap field.2 = .ok (valueType, value, nested))
    (sorted : KeyedList.Sorted Entry.key
      ((m.view.nest path field.1 nested).extend path field.1).entries)
    (queue : List Map.PatchItem) :
    ∃ m', patchField time origin path (m, queue) field =
        .ok (m', queue ++ m.view.nestedItems path field.1 nested) ∧
      m'.view = (m.view.nest path field.1 nested).leaf time origin path field.1 valueType
        value := by
  rw [patchField, stored]
  cases nested with
  | none =>
      exists setNode ⟨(path.append m.arrays field.1).1, m.state⟩ time origin
        (path.append m.arrays field.1).2 valueType value
      constructor
      · simp [Map.nestedItems]
      · exact setNode_view (m := ⟨(path.append m.arrays field.1).1, m.state⟩) lawful sorted _
          valueType value
  | some inner =>
      exists setNode ⟨(path.append (path.append m.arrays field.1).1 field.1).1, m.state⟩ time
        origin (path.append (path.append m.arrays field.1).1 field.1).2 valueType value
      constructor
      · rfl
      · exact setNode_view
          (m := ⟨(path.append (path.append m.arrays field.1).1 field.1).1, m.state⟩) lawful
          sorted _ valueType value

theorem fields_view (lawful : tree.Lawful EntryKey) {path : Slice} {fields : Object}
    {queue queue' : List Map.PatchItem} {m' : Map}
    (inOrder : Map.FieldsInOrder time origin path m.view fields)
    (written : fields.foldlM (Map.patchField time origin path) (m.view, queue) =
      .ok (m', queue')) :
    ∃ stored, fields.foldlM (patchField time origin path) (m, queue) = .ok (stored, queue') ∧
      stored.view = m' := by
  induction fields generalizing m queue with
  | nil =>
      cases written
      exact ⟨m, rfl, rfl⟩
  | cons field fields induction =>
      rw [List.foldlM_cons] at written ⊢
      rcases unwrapped : unwrap field.2 with abort | ⟨valueType, value, nested⟩
      · rw [Map.patchField, unwrapped] at written
        cases written
      · rcases inOrder valueType value nested unwrapped with ⟨sorted, rest⟩
        rw [Map.patchField_eq unwrapped, ok_bind] at written
        rcases patchField_view lawful unwrapped sorted queue with ⟨next, first, same⟩
        rw [first, ok_bind]
        rw [← same] at rest written
        exact induction rest written

/-- As long as the nodes stay in order, the tree follows the listed map. -/
theorem patchLoop_view (lawful : tree.Lawful EntryKey) {fuel : Nat}
    {queue : List Map.PatchItem} {m' : Map}
    (inOrder : Map.LoopInOrder order time origin fuel queue m.view)
    (written : Map.patchLoop order time origin fuel queue m.view = .ok m') :
    ∃ stored, patchLoop order time origin fuel queue m = .ok stored ∧ stored.view = m' := by
  induction fuel generalizing m queue with
  | zero =>
      cases queue with
      | nil =>
          cases written
          exact ⟨m, rfl, rfl⟩
      | cons cur queue => cases written
  | succ fuel induction =>
      cases queue with
      | nil =>
          cases written
          exact ⟨m, rfl, rfl⟩
      | cons cur queue =>
          rw [Map.patchLoop] at written
          rw [patchLoop]
          rcases bind_eq_ok.mp written with ⟨⟨m₁, queue₁⟩, fields, rest⟩
          rcases inOrder with ⟨fieldsInOrder, restInOrder⟩
          rcases fields_view lawful fieldsInOrder fields with ⟨next, first, same⟩
          have later := restInOrder m₁ queue₁ fields
          rw [first, ok_bind]
          subst same
          exact induction later rest

/-! ## Deleting -/

/-- Deleting nodes of a map in order leaves the other ones. -/
theorem deleteNodes_view (lawful : tree.Lawful EntryKey)
    (sorted : KeyedList.Sorted Entry.key m.view.entries) {nodes : List MapNode}
    (own : nodes.Sublist (tree.items m.state)) :
    ∃ stored, nodes.foldlM deleteNode m = .ok stored ∧ stored.arrays = m.arrays ∧
      tree.items stored.state = (tree.items m.state).filter fun node =>
        ∀ deleted ∈ nodes, (m.view.read deleted).key ≠ (m.view.read node).key := by
  induction nodes generalizing m with
  | nil =>
      exists m
      constructor
      · rfl
      · simp
  | cons node nodes induction =>
      have items := sorted_items sorted
      have member := own.subset (List.mem_cons_self ..)
      have others := (List.pairwise_cons.mp (items.sublist own)).1
      rcases lawful.delete _ m.state node items member with ⟨state, deletes, left⟩
      have deleted : m.deleteNode node = .ok { m with state := state } := by
        rw [deleteNode, less, deletes]
        rfl
      have restSorted : KeyedList.Sorted Entry.key (view { m with state := state }).entries := by
        rw [KeyedList.Sorted, Map.entries, List.pairwise_map]
        change (tree.items state).Pairwise _
        rw [left]
        exact KeyedList.sorted_delete items
      have restOwn : nodes.Sublist (tree.items state) := by
        have whole : KeyedList.delete (fun other => (m.view.read other).key)
            (m.view.read node).key nodes = nodes :=
          KeyedList.delete_of_absent fun other inside => (others other inside).ne'
        rw [left, ← whole]
        exact ((List.sublist_cons_self node nodes).trans own).filter _
      rcases induction restSorted restOwn with ⟨stored, ran, arrays, rest⟩
      exists stored
      constructor
      · rw [List.foldlM_cons, deleted, ok_bind]
        exact ran
      · constructor
        · exact arrays
        · rw [rest]
          change (tree.items state).filter _ = _
          rw [left, KeyedList.delete, List.filter_filter]
          apply List.filter_congr
          intro other _
          rw [Bool.eq_iff_iff]
          simp only [Bool.and_eq_true, decide_eq_true_eq, List.forall_mem_cons]
          constructor
          · rintro ⟨apart, differs⟩
            exact ⟨differs.symm, apart⟩
          · rintro ⟨differs, apart⟩
            exact ⟨apart, differs.symm⟩

/-! ## Forgetting -/

/-- The map reads as another one on each path. -/
def ReadsAs (m m' : StoredMap tree) : Prop :=
  ∀ path, m.view.get path = m'.view.get path ∧
    m.view.getWithOrigin path = m'.view.getWithOrigin path ∧
    m.view.list path = m'.view.list path ∧ m.view.keys path = m'.view.keys path

/-- Applying a separate patch to a map with nodes in order sets its writes. -/
theorem applyPatchIn_entries {tree : OrderedTree MapNode} (lawful : tree.Lawful EntryKey)
    {m : StoredMap tree} (exact : m.view.Exact) (order : FieldOrder) (time : Int)
    (origin : String) {patch : Object} (decoded : Decoded patch) (separate : Separate patch) :
    ∃ applied, m.applyPatchIn order time origin patch = .ok applied ∧ applied.view.Exact ∧
      ∀ e, e ∈ applied.view.entries ↔
        (e ∈ m.view.entries ∧ ∀ w, Writes patch w → (w.entry time origin).key ≠ e.key) ∨
          ∃ w, Writes patch w ∧ e = w.entry time origin := by
  rcases @Map.Exact.applyPatchIn_inOrder m.view time origin patch exact order decoded separate
    with ⟨⟨m₁, ran, after, entries⟩, inOrder⟩
  rcases patchLoop_view lawful inOrder ran with ⟨applied, applies, same⟩
  subst same
  exact ⟨applied, applies, after, entries⟩

/-- Applying a separate patch and forgetting its state restores the nodes. -/
theorem forgetState_undoes (tree : OrderedTree MapNode) (lawful : tree.Lawful EntryKey)
    (m : StoredMap tree) (exact : m.view.Exact) (order : FieldOrder) (time : Int)
    (origin : String) (patch : Object) (decoded : Decoded patch) (separate : Separate patch)
    (unstamped : m.view.Unstamped time origin) :
    ∃ applied restored, m.applyPatchIn order time origin patch = .ok applied ∧
      applied.forgetState time origin = .ok restored ∧
      restored.view.entries = m.view.entries ∧ restored.ReadsAs m := by
  rcases applyPatchIn_entries lawful exact order time origin decoded separate with
    ⟨applied, applies, after, entries⟩
  rcases deleteNodes_view lawful after.sorted (List.filter_sublist (p := fun item =>
    decide (item.time = time ∧ item.origin = origin))) with ⟨restored, deletes, arrays, left⟩
  -- The writes of the patch have the stamp, and no old entry has it.
  have back : restored.view.entries = m.view.entries := by
    have kept : restored.view.entries =
        applied.view.entries.filter fun e => ¬ (e.time = time ∧ e.origin = origin) := by
      have items := sorted_items after.sorted
      have sameRead : restored.view.read = applied.view.read := by
        funext node
        rw [Map.read, Map.read]
        change Entry.mk (node.path.contents restored.arrays) _ _ _ _ = _
        rw [arrays]
        rfl
      rw [Map.entries, Map.entries, List.filter_map, sameRead]
      change (tree.items restored.state).map _ = ((tree.items applied.state).filter _).map _
      rw [left]
      congr 1
      apply List.filter_congr
      intro node member
      rw [Bool.eq_iff_iff, Function.comp_apply, decide_eq_true_eq, decide_eq_true_eq]
      constructor
      · intro apart stamped
        exact apart node (List.mem_filter.mpr ⟨member, decide_eq_true stamped⟩) rfl
      · intro unlike deleted inside same
        rcases List.mem_filter.mp inside with ⟨isItem, stamped⟩
        have isNode := items.key_injective isItem member same
        subst isNode
        exact unlike (of_decide_eq_true stamped)
    rw [kept]
    apply (after.sorted.filter _).eq_of_mem_iff exact.sorted
    intro e
    rw [List.mem_filter, entries, decide_eq_true_eq]
    constructor
    · rintro ⟨⟨old, _⟩ | ⟨w, _, rfl⟩, unlike⟩
      · exact old
      · exact absurd ⟨rfl, rfl⟩ unlike
    · intro old
      have unlike := unstamped e old
      constructor
      · left
        constructor
        · exact old
        · intro w _ same
          have stamps : (w.entry time origin).stamp = e.stamp :=
            (Prod.mk.inj (toLex_inj.mp same)).2
          have parts := Prod.mk.inj (toLex_inj.mp stamps)
          exact unlike ⟨parts.1.symm, parts.2.symm⟩
      · exact unlike
  exists applied, restored
  constructor
  · exact applies
  · constructor
    · exact deletes
    · constructor
      · exact back
      · exact fun path => Map.reads_congr back path

/-! ## Two fields around an old one -/

/-- A new map is exact. -/
theorem new_exact (lawful : tree.Lawful EntryKey) : (new tree).view.Exact := by
  have same : (new tree).view = newMap := congrArg (Map.mk noArrays) lawful.empty
  rw [same]
  exact Map.newMap_exact

/-- The patch of a second author on the same paths is undone. -/
theorem forgetState_undoes_samplePatch :
    ∃ m applied restored,
      (new (leafTree MapNode)).applyPatchIn .listed 1 "alice" samplePatch = .ok m ∧
      m.applyPatchIn .listed 2 "bob" samplePatch = .ok applied ∧
      applied.forgetState 2 "bob" = .ok restored ∧
      restored.view.entries = m.view.entries ∧ restored.ReadsAs m := by
  rcases applyPatchIn_entries (leafTree_lawful MapNode EntryKey)
    (new_exact (leafTree_lawful MapNode EntryKey)) .listed 1 "alice" samplePatch_decoded
    samplePatch_separate with ⟨m, applies, exact, entries⟩
  have unstamped : m.view.Unstamped 2 "bob" := by
    rintro e member ⟨isTime, -⟩
    rcases (entries e).mp member with ⟨old, -⟩ | ⟨w, -, rfl⟩
    · have isEmpty : (new (leafTree MapNode)).view.entries = [] := rfl
      rw [isEmpty] at old
      cases old
    · exact absurd (show (1 : Int) = 2 from isTime) (by decide)
  rcases forgetState_undoes (leafTree MapNode) (leafTree_lawful MapNode EntryKey) m exact
    .listed 2 "bob" samplePatch samplePatch_decoded samplePatch_separate unstamped with
    ⟨applied, restored, rest⟩
  exact ⟨m, applied, restored, applies, rest⟩

instance (m : Map) (time : Int) (origin : String) : Decidable (m.Unstamped time origin) :=
  inferInstanceAs (Decidable (∀ e ∈ m.entries, ¬ (e.time = time ∧ e.origin = origin)))

/-- A field below three keys. -/
def middlePatch : Object :=
  [("a", .map [("b", .map [("c", .map [("m", .int 0)])])])]

/-- A field before it and one behind it. -/
def aroundPatch : Object :=
  [("a", .map [("b", .map [("c", .map [("l", .int 1), ("z", .int 2)])])])]

/-- The node of the first field stays before the old node, but reads as the second field, so it
is not found again. -/
theorem forgetState_panics :
    ∃ m applied, (new (leafTree MapNode)).applyPatchIn .listed 1 "alice" middlePatch = .ok m ∧
      m.view.Unstamped 2 "bob" ∧
      m.applyPatchIn .listed 2 "bob" aroundPatch = .ok applied ∧
      applied.forgetState 2 "bob" = .error (.panic "BUG: failed to delete map node") := by
  refine ⟨_, _, rfl, ?_, rfl, rfl⟩
  decide +kernel

end StoredMap

end Mintter.Crdt2
