import Mathlib.Data.List.Lex
import Mathlib.Data.Prod.Lex
import Mintter.Crdt2.Value
import Mintter.Foundation.Slices

/-!
# The last-writer-wins map

A map keeps one node for each path, time and origin that was written.  The
B-tree of nodes is a sorted list, ordered by the length of the path, the path,
the time and the origin.

`applyPatch` walks a nested object breadth first and builds the path of a field
by appending to the path of its object.  Paths are slices: the paths of two
fields can share a backing array, so the nodes refer to the arrays and are read
through them.
-/

namespace Mintter.Crdt2

open Mintter.Foundation

/-- How a value is stored: as it is, as a chunk of a list or of an array, or as a whole map. -/
inductive MapValueType where
  | primitive
  | listChunk
  | rgaChunk
  | atomicMap
deriving DecidableEq, Repr

/-- A write: its path, its stamp and what it writes. -/
structure MapNode where
  path : Slice
  time : Int
  origin : String
  valueType : MapValueType
  value : Value

/-- A node with its path read out of the arrays. -/
structure Entry where
  path : List String
  time : Int
  origin : String
  valueType : MapValueType
  value : Value
deriving DecidableEq

/-- Paths are compared by length first. -/
def pathKey (path : List String) : Nat ×ₗ List String :=
  toLex (path.length, path)

namespace Entry

/-- The path of an entry, shorter paths first. -/
def group (e : Entry) : Nat ×ₗ List String := pathKey e.path

/-- The time and the origin of an entry. -/
def stamp (e : Entry) : Int ×ₗ String := toLex (e.time, e.origin)

/-- The order of `mapKey.Less`: the path, then the time, then the origin. -/
abbrev key : Entry → (Nat ×ₗ List String) ×ₗ (Int ×ₗ String) :=
  KeyedList.groupKey group stamp

end Entry

/-- The key of a search position. -/
def pivot (path : List String) (time : Int) :
    (Nat ×ₗ List String) ×ₗ (Int ×ₗ String) :=
  toLex (pathKey path, toLex (time, ""))

/-- The nodes, and the arrays that hold their paths. -/
structure Map where
  arrays : Arrays String
  state : List MapNode

/-- A map without nodes. -/
def newMap : Map := ⟨noArrays, []⟩

/-- The greatest time. -/
def maxInt64 : Int := 2 ^ 63 - 1

namespace Map

/-- A node as it reads at the moment. -/
def read (m : Map) (node : MapNode) : Entry :=
  ⟨node.path.contents m.arrays, node.time, node.origin, node.valueType,
    node.value⟩

/-- The nodes in their order, as they read now. -/
def entries (m : Map) : List Entry := m.state.map m.read

/-- Set a node, or replace the one with its key. -/
def setNode (m : Map) (time : Int) (origin : String) (path : Slice)
    (valueType : MapValueType) (value : Value) : Map :=
  { m with
    state := KeyedList.set (fun node => (m.read node).key)
      ⟨path, time, origin, valueType, value⟩ m.state }

/-! ## Applying patches -/

/-- An object whose fields are still to be written. -/
structure PatchItem where
  m : Object
  path : Slice

end Map

/--
What is stored for a field.  Objects with one special key are unwrapped, other
objects are stored as they are and walked as well.
-/
def unwrap : Value → Outcome (MapValueType × Value × Option Object)
  | .map [("#list", value)] => pure (.listChunk, value, none)
  | .map [("#map", value)] => pure (.atomicMap, value, none)
  | .map [("#rga", _)] => panicWith "TODO: implement RGA"
  | .map fields => pure (.primitive, .map fields, some fields)
  | value => pure (.primitive, value, none)

mutual

/-- The number of objects in a value, a bound for the length of the queue. -/
def Value.objects : Value → Nat
  | .map fields => 1 + fieldObjects fields
  | _ => 0

/-- The number of objects in an object. -/
def fieldObjects : Object → Nat
  | [] => 0
  | (_, value) :: fields => value.objects + fieldObjects fields

end

namespace Map

/-- Write one field below `path`; a nested object is queued. -/
def patchField (time : Int) (origin : String) (path : Slice)
    (acc : Map × List PatchItem) (field : String × Value) :
    Outcome (Map × List PatchItem) := do
  let (m, queue) := acc
  let (valueType, value, nested) ← unwrap field.2
  let (arrays, queue) := match nested with
    | some fields =>
        let (arrays, child) := path.append m.arrays field.1
        (arrays, queue ++ [PatchItem.mk fields child])
    | none => (m.arrays, queue)
  let (arrays, leaf) := path.append arrays field.1
  pure (setNode { m with arrays := arrays } time origin leaf valueType value,
    queue)

end Map

/--
The order in which the fields of an object are visited.  It can be another one
for every object of the queue; these are counted from the last one.
-/
structure FieldOrder where
  fields : Nat → Object → Object
  perm : ∀ n object, (fields n object).Perm object

/-- The order in which the fields are listed. -/
def FieldOrder.listed : FieldOrder := ⟨fun _ object => object, fun _ _ => .rfl⟩

@[simp]
theorem FieldOrder.listed_fields (n : Nat) (object : Object) :
    listed.fields n object = object := rfl

/-- The order that starts each map at its entry with this index. -/
def FieldOrder.startAt (index : Nat) : FieldOrder where
  fields _ object := object.rotate index
  perm _ object := object.rotate_perm index

/-- Every entry comes first in some order. -/
theorem FieldOrder.exists_fields_eq_cons {object : Object} {entry : String × Value}
    (member : entry ∈ object) (kind : Nat) :
    ∃ (order : FieldOrder) (rest : Object),
      order.fields kind object = entry :: rest := by
  rcases List.append_of_mem member with ⟨before, after, rfl⟩
  refine ⟨.startAt before.length, after ++ before, ?_⟩
  exact List.rotate_append_length_eq before (entry :: after)

namespace Map

/-- Write the fields of one pending object after the other. -/
def patchLoop (order : FieldOrder) (time : Int) (origin : String) :
    Nat → List PatchItem → Map → Outcome Map
  | _, [], m => pure m
  | 0, _ :: _, _ => .error .outOfFuel
  | fuel + 1, cur :: queue, m => do
      let (m, queue) ← (order.fields fuel cur.m).foldlM
        (patchField time origin cur.path) (m, queue)
      patchLoop order time origin fuel queue m

/-- Apply a patch, visiting the fields of its objects in some order. -/
def applyPatchIn (order : FieldOrder) (m : Map) (time : Int) (origin : String)
    (patch : Object) : Outcome Map :=
  patchLoop order time origin (fieldObjects patch + 1) [⟨patch, .nil⟩] m

/-- Apply a patch, visiting the fields in the order of their keys. -/
def applyPatch (m : Map) (time : Int) (origin : String) (patch : Object) :
    Outcome Map :=
  m.applyPatchIn .listed time origin patch

/-! ## Reading -/

/-- The value of the last write at a path, if it is not a list chunk. -/
def get (m : Map) (path : List String) : Option Value :=
  let before := KeyedList.descend Entry.key (pivot path maxInt64) m.entries
  match before.head? with
  | some n =>
      if n.path = path then
        if n.valueType = .primitive ∨ n.valueType = .atomicMap then some n.value
        else none
      else none
  | none => if path = [] then some .null else none

/-- The value of the last write at a path with the origin of that write. -/
def getWithOrigin (m : Map) (path : List String) : Option (Value × String) :=
  let before := KeyedList.descend Entry.key (pivot path maxInt64) m.entries
  match before.head? with
  | some n =>
      if n.path = path then
        if n.valueType = .primitive ∨ n.valueType = .atomicMap then
          some (n.value, n.origin)
        else none
      else none
  | none => if path = [] then some (.null, "") else none

/-- Hand one list chunk to the callback; any other node ends the iteration. -/
def chunkStep {σ : Type} (path : List String)
    (fn : σ → Int → String → List Value → Outcome (σ × Bool))
    (state : σ) (item : Entry) : Outcome (σ × Bool) :=
  if item.valueType ≠ .listChunk then pure (state, false)
  else if item.path ≠ path then pure (state, false)
  else do
    let chunk ← assertType Value.asMap (some item.value)
    if chunk.get "#ins" = none ∨ chunk.get "#ins" = some .null then
      panicWith "TODO: handle non-inserting list chunks"
    else
      let items ← assertType Value.asList (chunk.get "#ins")
      fn state item.time item.origin items

/-- Run the callback on the chunks of a path, from time zero on. -/
def forEachListChunk {σ : Type} (m : Map) (path : List String)
    (fn : σ → Int → String → List Value → Outcome (σ × Bool)) (state : σ) :
    Outcome σ :=
  visit (chunkStep path fn)
    (KeyedList.ascend Entry.key (pivot path 0) m.entries) state

/-- The items of all list chunks at a path, if there are any chunks. -/
def list (m : Map) (path : List String) : Outcome (List Value × Bool) :=
  m.forEachListChunk path
    (fun out _ _ items => pure ((out.1 ++ items, true), true)) ([], false)

/-- Note the last key of a path; a path with other keys before it ends this. -/
def keyStep (path : List String) (keys : List String) (item : Entry) :
    Outcome (List String × Bool) :=
  match item.path.getLast? with
  | none => panicWith "slice bounds out of range"
  | some last =>
      if path ≠ item.path.dropLast then pure (keys, false)
      else pure (KeyedList.set (fun key => key) last keys, true)

/-- The keys that were written below a path, sorted. -/
def keys (m : Map) (path : List String) : Outcome (List String) :=
  visit (keyStep path)
    (KeyedList.ascend Entry.key (pivot (path ++ [""]) 0) m.entries) []

end Map

end Mintter.Crdt2
