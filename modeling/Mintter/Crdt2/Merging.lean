import Mathlib.Logic.Relation
import Mintter.Crdt2.Versions

/-!
# Merging patches of any depth

Maps that apply the same patches in different orders read the same, as long as
the paths of their nodes are what was written.  The path of a field is appended
to the path of its object.  When that path has room in its array, two fields of
the object would share the new cell, so the object must not have two fields
(`Separate`).  Under this condition the entries of a map are the writes of its
patches, which determines the map.
-/

namespace Mintter.Crdt2

open Mintter.Foundation
open Relation

/-! ## The writes of a patch -/

/-- An object that is walked because it is the value of a field. -/
def Child (front inner : Pending) : Prop :=
  ∃ key value valueType stored, (key, value) ∈ front.1 ∧
    unwrap value = .ok (valueType, stored, some inner.1) ∧
    inner.2 = front.2 ++ [key]

/-- The objects of a patch that are walked, with their paths. -/
def Reached (patch : Object) (front : Pending) : Prop :=
  ReflTransGen Child (patch, []) front

/-- The writes of the fields of one object. -/
def FieldWrite (front : Pending) (w : Write) : Prop :=
  ∃ key value nested, (key, value) ∈ front.1 ∧
    unwrap value = .ok (w.valueType, w.value, nested) ∧
    w.path = front.2 ++ [key]

/-- All writes of a patch. -/
def Writes (patch : Object) (w : Write) : Prop :=
  ∃ front, Reached patch front ∧ FieldWrite front w

/-- The keys of every object are different, as in a decoded patch. -/
def Decoded (patch : Object) : Prop :=
  ∀ front, Reached patch front → (front.1.map Prod.fst).Nodup

/--
Nothing is left to be implemented, and an object whose path has room in its
array has at most one field.
-/
structure Separate (patch : Object) : Prop where
  unwraps : ∀ front, Reached patch front → ∀ field ∈ front.1,
    ∃ result, unwrap field.2 = .ok result
  alone : ∀ front, Reached patch front →
    front.2.length < capacity front.2.length → front.1.length ≤ 1

section Writes

variable {patch : Object} {front front' : Pending} {w w' : Write}

/-- A nested object is one key deeper. -/
theorem Child.length_eq (child : Child front front') :
    front'.2.length = front.2.length + 1 := by
  obtain ⟨key, value, valueType, stored, -, -, path_eq⟩ := child
  simp [path_eq]

theorem Reached.path_eq_nil_iff (reached : Reached patch front) :
    front.2 = [] ↔ front = (patch, []) := by
  constructor
  · intro isNil
    rcases ReflTransGen.cases_tail reached with same | ⟨above, -, child⟩
    · exact same
    · have := child.length_eq
      simp [isNil] at this
  · rintro rfl
    rfl

/-- Without repeated keys, a key has one value. -/
theorem value_eq_of_mem {fields : Object} {key : String} {value value' : Value}
    (unique : (fields.map Prod.fst).Nodup) (member : (key, value) ∈ fields)
    (member' : (key, value') ∈ fields) : value = value' := by
  have same := List.inj_on_of_nodup_map unique member member' rfl
  exact (Prod.mk.inj same).2

/-- One object is walked at every path. -/
theorem Reached.eq_of_path_eq (decoded : Decoded patch)
    (reached : Reached patch front) (reached' : Reached patch front')
    (same : front.2 = front'.2) : front = front' := by
  induction reached generalizing front' with
  | refl => exact (reached'.path_eq_nil_iff.mp same.symm).symm
  | @tail above front reached child induction =>
      rcases ReflTransGen.cases_tail reached' with rfl | ⟨above', below', child'⟩
      · have := child.length_eq
        simp [same] at this
      · obtain ⟨key, value, valueType, stored, member, isNested, path_eq⟩ := child
        obtain ⟨key', value', valueType', stored', member', isNested', path_eq'⟩ :=
          child'
        rw [path_eq, path_eq'] at same
        obtain ⟨samePath, sameKey⟩ := List.append_inj' same rfl
        obtain rfl : above = above' := induction below' samePath
        obtain rfl : key = key' := by simpa using sameKey
        obtain rfl := value_eq_of_mem (decoded above reached) member member'
        rw [isNested] at isNested'
        obtain ⟨-, -, sameInner⟩ := by simpa using Except.ok.inj isNested'
        exact Prod.ext sameInner (by rw [path_eq, path_eq'])

/-- A patch writes one value at every path. -/
theorem Writes.eq_of_path_eq (decoded : Decoded patch) (writes : Writes patch w)
    (writes' : Writes patch w') (same : w.path = w'.path) : w = w' := by
  obtain ⟨front, reached, key, value, nested, member, stored, path_eq⟩ := writes
  obtain ⟨front', reached', key', value', nested', member', stored', path_eq'⟩ :=
    writes'
  have split := same
  rw [path_eq, path_eq'] at split
  obtain ⟨samePath, sameKey⟩ := List.append_inj' split rfl
  obtain rfl := reached.eq_of_path_eq decoded reached' samePath
  obtain rfl : key = key' := by simpa using sameKey
  obtain rfl := value_eq_of_mem (decoded front reached) member member'
  rw [stored] at stored'
  obtain ⟨sameType, sameValue, -⟩ := by simpa using Except.ok.inj stored'
  cases w
  cases w'
  simp_all

end Writes

/-! ## Slices that do not write into each other -/

namespace Map

/-- The map after an append to a path. -/
def extend (m : Map) (path : Slice) (key : String) : Map :=
  { m with arrays := (path.append m.arrays key).1 }

/--
The paths of queued objects have arrays of their own, in which no node reaches
behind them.
-/
structure Apart (m : Map) (queue : List PatchItem) : Prop where
  fits : ∀ node ∈ m.state, node.path.Fits m.arrays
  grown : ∀ item ∈ queue, item.path.Grown m.arrays
  distinct : queue.Pairwise fun item other =>
    item.path.array ≠ other.path.array
  behind : ∀ item ∈ queue, ∀ node ∈ m.state,
    node.path.array = item.path.array → node.path.length ≤ item.path.length

section Apart

variable {m : Map} {queue : List PatchItem} {cur item : PatchItem}
    {key : String}

theorem Apart.tail (apart : Apart m (cur :: queue)) : Apart m queue where
  fits := apart.fits
  grown := fun item member => apart.grown item (List.mem_cons_of_mem _ member)
  distinct := (List.pairwise_cons.mp apart.distinct).2
  behind := fun item member =>
    apart.behind item (List.mem_cons_of_mem _ member)

/-- An append to the path of the first object changes no path. -/
theorem Apart.extend_reads (apart : Apart m (cur :: queue)) (key : String) :
    (m.extend cur.path key).entries = m.entries ∧
      ∀ item ∈ cur :: queue, item.path.contents (m.extend cur.path key).arrays =
        item.path.contents m.arrays := by
  have grown := apart.grown cur (List.mem_cons_self ..)
  constructor
  · refine List.map_congr_left fun node member => ?_
    have same := grown.contents_of_behind (apart.fits node member)
      (apart.behind cur (List.mem_cons_self ..) node member) key
    rw [read, read, extend, same]
  · intro item member
    refine grown.contents_of_behind (apart.grown item member).toFits
      (fun same => ?_) key
    rcases List.mem_cons.mp member with rfl | inQueue
    · exact le_rfl
    · exact absurd same.symm
        ((List.pairwise_cons.mp apart.distinct).1 item inQueue)

/-- The arrays after an append keep the other slices in place. -/
theorem Apart.extend (apart : Apart m (cur :: queue)) (key : String) :
    Apart (m.extend cur.path key) (cur :: queue) where
  fits := fun node member =>
    ((apart.grown cur (List.mem_cons_self ..)).toFits.of_append
      (apart.fits node member) key).1
  grown := fun item member =>
    Slice.Grown.of_append (apart.grown cur (List.mem_cons_self ..)).toFits
      (apart.grown item member) key
  distinct := apart.distinct
  behind := apart.behind

/-- Queue an object whose array is used by no longer slice. -/
theorem Apart.push (apart : Apart m queue) (grown : item.path.Grown m.arrays)
    (own : ∀ other ∈ queue, other.path.array ≠ item.path.array)
    (behind : ∀ node ∈ m.state, node.path.array = item.path.array →
      node.path.length ≤ item.path.length) : Apart m (queue ++ [item]) where
  fits := apart.fits
  grown := fun other member => by
    rcases List.mem_append.mp member with old | isItem
    · exact apart.grown other old
    · exact List.mem_singleton.mp isItem ▸ grown
  distinct := List.pairwise_append.mpr
    ⟨apart.distinct, List.pairwise_singleton .., fun other member item' isItem =>
      List.mem_singleton.mp isItem ▸ own other member⟩
  behind := fun other member => by
    rcases List.mem_append.mp member with old | isItem
    · exact apart.behind other old
    · exact List.mem_singleton.mp isItem ▸ behind

/-- Store a node that reaches behind no queued path. -/
theorem Apart.setNode {path : Slice} (apart : Apart m queue)
    (fits : path.Fits m.arrays)
    (behind : ∀ item ∈ queue, path.array = item.path.array →
      path.length ≤ item.path.length) (time : Int) (origin : String)
    (valueType : MapValueType) (value : Value) :
    Apart (m.setNode time origin path valueType value) queue where
  fits := fun node member => by
    rcases KeyedList.mem_set_subset member with rfl | old
    · exact fits
    · exact apart.fits node old
  grown := apart.grown
  distinct := apart.distinct
  behind := fun item member node inState => by
    rcases KeyedList.mem_set_subset inState with rfl | old
    · exact behind item member
    · exact apart.behind item member node old

end Apart

/-! ## Writing one field -/

/-- The map in which a nested object got its path. -/
def nest (m : Map) (path : Slice) (key : String) : Option Object → Map
  | none => m
  | some _ => m.extend path key

/-- The entry of a nested object in the queue. -/
def nestedItems (m : Map) (path : Slice) (key : String)
    (nested : Option Object) : List PatchItem :=
  nested.toList.map fun inner => ⟨inner, (path.append m.arrays key).2⟩

/-- The map after a field was stored. -/
def leaf (m : Map) (time : Int) (origin : String) (path : Slice) (key : String)
    (valueType : MapValueType) (value : Value) : Map :=
  (m.extend path key).setNode time origin (path.append m.arrays key).2 valueType
    value

section Field

variable {m : Map} {queue : List PatchItem} {cur : PatchItem} {key : String}
    {time : Int} {origin : String} {valueType : MapValueType} {value : Value}
    {nested : Option Object} {keys : List String}

/-- Writing a field nests its object, if there is one, or sets a leaf. -/
theorem patchField_eq {path : Slice} {field : String × Value}
    (stored : unwrap field.2 = .ok (valueType, value, nested)) :
    patchField time origin path (m, queue) field =
      .ok ((m.nest path field.1 nested).leaf time origin path field.1 valueType
        value, queue ++ m.nestedItems path field.1 nested) := by
  rw [patchField, stored]
  cases nested with
  | none => simp [nest, leaf, nestedItems, extend]
  | some inner => rfl

/-- What storing a field at the path of an object does. -/
theorem Apart.leaf_entries (apart : Apart m (cur :: queue))
    (reads : cur.path.contents m.arrays = keys) (time : Int) (origin : String)
    (key : String) (valueType : MapValueType) (value : Value) :
    (m.leaf time origin cur.path key valueType value).entries =
        KeyedList.set Entry.key
          ⟨keys ++ [key], time, origin, valueType, value⟩ m.entries ∧
      ∀ item ∈ cur :: queue, item.path.contents
        (m.leaf time origin cur.path key valueType value).arrays =
          item.path.contents m.arrays := by
  have grown := apart.grown cur (List.mem_cons_self ..)
  obtain ⟨entries_eq, same⟩ := apart.extend_reads key
  refine ⟨?_, same⟩
  rw [leaf, entries_setNode, entries_eq]
  have reads' : (cur.path.append m.arrays key).2.contents
      (m.extend cur.path key).arrays = keys ++ [key] :=
    (grown.append key).2.trans (by rw [reads])
  rw [reads']

/-- The nested object gets its path; the other paths read as before. -/
theorem Apart.nest_reads (apart : Apart m (cur :: queue))
    (reads : cur.path.contents m.arrays = keys) (key : String)
    (nested : Option Object) :
    Apart (m.nest cur.path key nested) (cur :: queue) ∧
      (m.nest cur.path key nested).entries = m.entries ∧
      (∀ item ∈ cur :: queue, item.path.contents
        (m.nest cur.path key nested).arrays = item.path.contents m.arrays) ∧
      (cur.path.cells (m.nest cur.path key nested).arrays).length =
        (cur.path.cells m.arrays).length ∧
      ∀ item ∈ m.nestedItems cur.path key nested,
        item.path.Grown (m.nest cur.path key nested).arrays ∧
        item.path.length = cur.path.length + 1 ∧
        item.path.contents (m.nest cur.path key nested).arrays =
          keys ++ [key] := by
  have grown := apart.grown cur (List.mem_cons_self ..)
  cases nested with
  | none => exact ⟨apart, rfl, fun _ _ => rfl, rfl, by simp [nestedItems]⟩
  | some inner =>
      obtain ⟨entries_eq, same⟩ := apart.extend_reads key
      refine ⟨apart.extend key, entries_eq, same,
        (grown.toFits.of_append grown.toFits key).2, ?_⟩
      intro item member
      obtain rfl : item = ⟨inner, (cur.path.append m.arrays key).2⟩ := by
        simpa [nestedItems] using member
      exact ⟨(grown.append key).1, Slice.append_length .., 
        (grown.append key).2.trans (by rw [reads])⟩

/-- The path of the object itself stays as it is. -/
theorem Apart.cur_kept (apart : Apart m (cur :: queue))
    (reads : cur.path.contents m.arrays = keys) (time : Int) (origin key : String)
    (valueType : MapValueType) (value : Value) (nested : Option Object) :
    cur.path.contents ((m.nest cur.path key nested).leaf time origin cur.path key
        valueType value).arrays = keys ∧
      (cur.path.cells ((m.nest cur.path key nested).leaf time origin cur.path key
        valueType value).arrays).length = (cur.path.cells m.arrays).length := by
  obtain ⟨apart₁, -, reads₁, cells₁, -⟩ := apart.nest_reads reads key nested
  have curReads := (reads₁ cur (List.mem_cons_self ..)).trans reads
  obtain ⟨-, reads₂⟩ :=
    apart₁.leaf_entries curReads time origin key valueType value
  have fits := (apart₁.grown cur (List.mem_cons_self ..)).toFits
  exact ⟨(reads₂ cur (List.mem_cons_self ..)).trans curReads,
    (fits.of_append fits key).2.trans cells₁⟩

/-- When the path of the object has no room, both new paths are copies. -/
theorem Apart.field_of_full (apart : Apart m (cur :: queue))
    (reads : cur.path.contents m.arrays = keys)
    (full : cur.path.length = (cur.path.cells m.arrays).length) :
    Apart ((m.nest cur.path key nested).leaf time origin cur.path key valueType
      value) (cur :: (queue ++ m.nestedItems cur.path key nested)) := by
  obtain ⟨apart₁, -, -, cells_eq, items⟩ :=
    apart.nest_reads reads key nested
  have apart₂ : Apart (m.nest cur.path key nested)
      (cur :: (queue ++ m.nestedItems cur.path key nested)) := by
    cases nested with
    | none => simpa [nestedItems] using apart₁
    | some inner =>
        obtain ⟨grown, -, -⟩ := items _ (List.mem_singleton_self _)
        have fresh : ((cur.path.append m.arrays key).2).array =
            m.arrays.length := Slice.append_array_of_full full key
        refine apart₁.push grown (fun other member same => ?_)
          fun node member same => ?_
        · exact (apart.grown other member).array_lt.ne (same.trans fresh)
        · exact absurd (same.trans fresh) (apart.fits node member).array_lt.ne
  have grown := apart₂.grown cur (List.mem_cons_self ..)
  refine (apart₂.extend key).setNode (grown.append key).1.toFits ?_ _ _ _ _
  intro item member same
  rw [Slice.append_array_of_full (cells_eq ▸ full)] at same
  exact absurd same.symm (apart₂.grown item member).array_lt.ne

/-- When it has room, both new paths are the same longer window. -/
theorem Apart.field_of_room (apart : Apart m (cur :: queue))
    (room : cur.path.length < (cur.path.cells m.arrays).length) :
    Apart ((m.nest cur.path key nested).leaf time origin cur.path key valueType
      value) (queue ++ m.nestedItems cur.path key nested) := by
  have grown := apart.grown cur (List.mem_cons_self ..)
  have others : ∀ other ∈ queue, other.path.array ≠ cur.path.array :=
    fun other member same =>
      (List.pairwise_cons.mp apart.distinct).1 other member same.symm
  have stays : ((cur.path.append m.arrays key).2).array = cur.path.array :=
    Slice.append_array_of_room room key
  have extended := (apart.extend key).tail
  cases nested with
  | none =>
      simp only [nestedItems, Option.toList_none, List.map_nil, List.append_nil]
      refine extended.setNode (grown.append key).1.toFits ?_ _ _ _ _
      exact fun item member same =>
        absurd (same.symm.trans stays) (others item member)
  | some inner =>
      have same : (m.extend cur.path key).extend cur.path key =
          m.extend cur.path key := by
        rw [Map.extend, Map.extend, grown.toFits.append_append room]
      have sameLeaf : cur.path.append (m.extend cur.path key).arrays key =
          cur.path.append m.arrays key := grown.toFits.append_append room key
      have pushed : Apart (m.extend cur.path key)
          (queue ++ [⟨inner, (cur.path.append m.arrays key).2⟩]) :=
        extended.push (grown.append key).1
          (fun other member sameArray =>
            others other member (sameArray.trans stays))
          (fun node member sameArray =>
            (apart.behind cur (List.mem_cons_self ..) node member
              (sameArray.trans stays)).trans (by simp))
      rw [nest, leaf, same, sameLeaf]
      refine pushed.setNode (grown.append key).1.toFits ?_ _ _ _ _
      intro item member sameArray
      rcases List.mem_append.mp member with old | isNew
      · exact absurd (sameArray.symm.trans stays) (others item old)
      · exact (List.mem_singleton.mp isNew) ▸ le_rfl

end Field

/-! ## Walking a patch -/

/-- The nested objects of an object, with their paths. -/
def nestedFields (keys : List String) (fields : Object) : List Pending :=
  fields.filterMap fun field =>
    match unwrap field.2 with
    | .ok (_, _, some inner) => some (inner, keys ++ [field.1])
    | _ => none

/--
The map holds the writes `made` so far and the old entries that they do not replace, and
the queue the objects that are pending.
-/
structure Walked (base : Map) (time : Int) (origin : String) (patch : Object)
    (made : Set Write) (pending : List Pending) (m : Map)
    (queue : List PatchItem) : Prop where
  nil_grown : Slice.nil.Grown m.arrays
  queued : (queue.map fun item => (item.m, item.path.contents m.arrays)) =
    pending
  sorted : KeyedList.Sorted Entry.key m.entries
  mem_entries : ∀ e, e ∈ m.entries ↔
    (e ∈ base.entries ∧ ∀ w ∈ made, (w.entry time origin).key ≠ e.key) ∨
      ∃ w ∈ made, e = w.entry time origin
  writes : ∀ w ∈ made, Writes patch w

section Walk

variable {base m : Map} {time : Int} {origin : String} {patch : Object}
    {made : Set Write} {pending : List Pending} {queue : List PatchItem}
    {cur : PatchItem} {keys : List String}

/-- The nested objects of the fields are the children of the object. -/
theorem mem_nestedFields {fields : Object} {front : Pending} :
    front ∈ nestedFields keys fields ↔ Child (fields, keys) front := by
  rw [nestedFields, List.mem_filterMap]
  constructor
  · rintro ⟨⟨key, value⟩, member, isFront⟩
    split at isFront
    · next valueType stored inner unwrapped =>
        obtain rfl := Option.some.inj isFront
        exact ⟨key, value, valueType, stored, member, unwrapped, rfl⟩
    · cases isFront
  · rintro ⟨key, value, valueType, stored, member, unwrapped, path_eq⟩
    refine ⟨(key, value), member, ?_⟩
    simp [unwrapped, ← path_eq]

/-- No entry has this timestamp and origin. -/
def Unstamped (m : Map) (time : Int) (origin : String) : Prop :=
  ∀ e ∈ m.entries, ¬ (e.time = time ∧ e.origin = origin)

/-- The path of a nested object reads right after the field was stored. -/
theorem nestedItems_reads (apart : Apart m (cur :: queue))
    (reads : cur.path.contents m.arrays = keys) (time : Int) (origin key : String)
    (valueType : MapValueType) (value : Value) (nested : Option Object) :
    ((m.nestedItems cur.path key nested).map fun item => (item.m,
      item.path.contents ((m.nest cur.path key nested).leaf time origin cur.path
        key valueType value).arrays)) =
      nested.toList.map fun inner => (inner, keys ++ [key]) := by
  have grown := apart.grown cur (List.mem_cons_self ..)
  cases nested with
  | none => simp [nestedItems]
  | some inner =>
      refine congrArg (fun path => [(inner, path)]) ?_
      refine (grown.contents_append_append key).trans ?_
      exact (grown.append key).2.trans (by rw [reads])

/-- Writing one field of a reached object. -/
theorem Walked.store (decoded : Decoded patch)
    (walked : Walked base time origin patch made pending m queue)
    (apart : Apart m (cur :: queue))
    (reads : cur.path.contents m.arrays = keys)
    {field : String × Value} {valueType : MapValueType} {value : Value}
    {nested : Option Object}
    (stored : unwrap field.2 = .ok (valueType, value, nested))
    (writes : Writes patch ⟨keys ++ [field.1], valueType, value⟩) :
    Walked base time origin patch
      (insert ⟨keys ++ [field.1], valueType, value⟩ made)
      (pending ++ nestedFields keys [field])
      ((m.nest cur.path field.1 nested).leaf time origin cur.path field.1
        valueType value)
      (queue ++ m.nestedItems cur.path field.1 nested) := by
  obtain ⟨apart₁, entries₁, reads₁, -, -⟩ :=
    apart.nest_reads reads field.1 nested
  have curReads := (reads₁ cur (List.mem_cons_self ..)).trans reads
  obtain ⟨entries₂, reads₂⟩ :=
    apart₁.leaf_entries curReads time origin field.1 valueType value
  have newReads := nestedItems_reads apart reads time origin field.1 valueType
    value nested
  set m' := (m.nest cur.path field.1 nested).leaf time origin cur.path field.1
    valueType value
  have entries_eq : m'.entries = KeyedList.set Entry.key
      (Write.entry ⟨keys ++ [field.1], valueType, value⟩ time origin)
      m.entries := by
    rw [entries₂, entries₁]
    rfl
  -- A write of this patch with the same key can only be the same write.
  have agree : ∀ w ∈ made, (w.entry time origin).key =
      (Write.entry ⟨keys ++ [field.1], valueType, value⟩ time origin).key →
        w = ⟨keys ++ [field.1], valueType, value⟩ := by
    intro w isMade same
    have samePath : w.path = keys ++ [field.1] := path_eq_of_key_eq same
    exact (walked.writes w isMade).eq_of_path_eq decoded writes samePath
  have pending_eq : nestedFields keys [field] =
      nested.toList.map fun inner => (inner, keys ++ [field.1]) := by
    rw [nestedFields]
    cases nested <;> simp [stored]
  have grown := apart.grown cur (List.mem_cons_self ..)
  refine ⟨?_, ?_, ?_, fun e => ?_, ?_⟩
  · refine Slice.Grown.of_append
      (apart₁.grown cur (List.mem_cons_self ..)).toFits ?_ field.1
    cases nested with
    | none => exact walked.nil_grown
    | some inner => exact walked.nil_grown.of_append grown.toFits field.1
  · rw [List.map_append, newReads, pending_eq, ← walked.queued]
    congr 1
    refine List.map_congr_left fun item member => ?_
    rw [reads₂ item (List.mem_cons_of_mem _ member),
      reads₁ item (List.mem_cons_of_mem _ member)]
  · rw [entries_eq]
    exact KeyedList.sorted_set walked.sorted _
  · rw [entries_eq, KeyedList.mem_set_iff walked.sorted, walked.mem_entries]
    simp only [Set.mem_insert_iff, exists_eq_or_imp, forall_eq_or_imp]
    constructor
    · rintro (isNew | ⟨⟨old, differs⟩ | isMade, replaced⟩)
      · exact .inr (.inl isNew)
      · exact .inl ⟨old, Ne.symm replaced, differs⟩
      · exact .inr (.inr isMade)
    · rintro (⟨old, replaced, differs⟩ | isNew | ⟨w, isMade, rfl⟩)
      · exact .inr ⟨.inl ⟨old, differs⟩, Ne.symm replaced⟩
      · exact .inl isNew
      · by_cases same : (w.entry time origin).key =
            (Write.entry ⟨keys ++ [field.1], valueType, value⟩ time origin).key
        · exact .inl (congrArg (Write.entry · time origin) (agree w isMade same))
        · exact .inr ⟨.inr ⟨w, isMade, rfl⟩, same⟩
  · rintro w (rfl | isMade)
    · exact writes
    · exact walked.writes w isMade

/-- The writes of one more field. -/
theorem fieldWrites_cons {field : String × Value} {fields : Object}
    {valueType : MapValueType} {value : Value} {nested : Option Object}
    (stored : unwrap field.2 = .ok (valueType, value, nested)) :
    {w | FieldWrite (field :: fields, keys) w} =
      insert ⟨keys ++ [field.1], valueType, value⟩
        {w | FieldWrite (fields, keys) w} := by
  ext w
  constructor
  · rintro ⟨key, value', nested', member, stored', path_eq⟩
    rcases List.mem_cons.mp member with rfl | inRest
    · rw [stored] at stored'
      obtain ⟨rfl, rfl, -⟩ := by simpa using Except.ok.inj stored'
      refine Or.inl ?_
      cases w
      exact congrArg (Write.mk · _ _) path_eq
    · exact Or.inr ⟨key, value', nested', inRest, stored', path_eq⟩
  · rintro (rfl | ⟨key, value', nested', member, stored', path_eq⟩)
    · exact ⟨field.1, field.2, nested, List.mem_cons_self .., stored, rfl⟩
    · exact ⟨key, value', nested', List.mem_cons_of_mem _ member, stored',
        path_eq⟩

theorem nestedFields_cons (field : String × Value) (fields : Object) :
    nestedFields keys (field :: fields) =
      nestedFields keys [field] ++ nestedFields keys fields := by
  rw [nestedFields, ← List.singleton_append, List.filterMap_append]
  rfl

theorem fieldWrites_nil : {w | FieldWrite (([] : Object), keys) w} = ∅ := by
  ext w
  simp [FieldWrite]

/-- Each field is stored when the entries are in order. -/
def FieldsInOrder (time : Int) (origin : String) (path : Slice) : Map → Object → Prop
  | _, [] => True
  | m, field :: fields => ∀ valueType value nested,
      unwrap field.2 = .ok (valueType, value, nested) →
        KeyedList.Sorted Entry.key ((m.nest path field.1 nested).extend path field.1).entries ∧
          FieldsInOrder time origin path
            ((m.nest path field.1 nested).leaf time origin path field.1 valueType value) fields

/-- Each field of the queued objects is stored when the entries are in order. -/
def LoopInOrder (order : FieldOrder) (time : Int) (origin : String) :
    Nat → List PatchItem → Map → Prop
  | _, [], _ => True
  | 0, _ :: _, _ => True
  | fuel + 1, cur :: queue, m =>
      FieldsInOrder time origin cur.path m (order.fields fuel cur.m) ∧
        ∀ m' queue', (order.fields fuel cur.m).foldlM (patchField time origin cur.path)
          (m, queue) = .ok (m', queue') → LoopInOrder order time origin fuel queue' m'

/-- An append to the path of an object leaves the entries in order. -/
theorem Walked.extend_sorted
    (walked : Walked base time origin patch made pending m queue)
    (apart : Apart m (cur :: queue)) (reads : cur.path.contents m.arrays = keys)
    (key : String) (nested : Option Object) :
    KeyedList.Sorted Entry.key ((m.nest cur.path key nested).extend cur.path key).entries := by
  rcases apart.nest_reads reads key nested with ⟨apart₁, entries₁, -⟩
  rw [(apart₁.extend_reads key).1, entries₁]
  exact walked.sorted

/-- The fields of an object whose path has no room. -/
theorem Walked.fields_of_full {fields : Object} (decoded : Decoded patch)
    (walked : Walked base time origin patch made pending m queue)
    (apart : Apart m (cur :: queue))
    (reads : cur.path.contents m.arrays = keys)
    (full : cur.path.length = (cur.path.cells m.arrays).length)
    (unwraps : ∀ field ∈ fields, ∃ result, unwrap field.2 = .ok result)
    (writes : ∀ w, FieldWrite (fields, keys) w → Writes patch w) :
    ∃ m' queue', fields.foldlM (patchField time origin cur.path) (m, queue) =
        .ok (m', queue') ∧
      Walked base time origin patch (made ∪ {w | FieldWrite (fields, keys) w})
        (pending ++ nestedFields keys fields) m' queue' ∧
      Apart m' (cur :: queue') ∧ FieldsInOrder time origin cur.path m fields := by
  induction fields generalizing m queue made pending with
  | nil =>
      refine ⟨m, queue, rfl, ?_, apart, trivial⟩
      simpa [fieldWrites_nil, nestedFields] using walked
  | cons field fields induction =>
      obtain ⟨⟨valueType, value, nested⟩, stored⟩ :=
        unwraps field (List.mem_cons_self ..)
      have cons_eq : {w | FieldWrite (field :: fields, keys) w} =
          insert ⟨keys ++ [field.1], valueType, value⟩
            {w | FieldWrite (fields, keys) w} := fieldWrites_cons stored
      have isWrite : ∀ w, w = ⟨keys ++ [field.1], valueType, value⟩ ∨
          FieldWrite (fields, keys) w → Writes patch w := fun w member =>
        writes w (cons_eq.symm.subset member)
      have walked' := walked.store decoded apart reads stored
        (isWrite _ (Or.inl rfl))
      have apart' : Apart ((m.nest cur.path field.1 nested).leaf time origin
          cur.path field.1 valueType value)
          (cur :: (queue ++ m.nestedItems cur.path field.1 nested)) :=
        apart.field_of_full reads full
      obtain ⟨reads', cells_eq⟩ := apart.cur_kept reads time origin field.1
        valueType value nested
      obtain ⟨m', queue', walkedRest, spread, apart'', inOrder⟩ :=
        induction walked' apart' reads' (full.trans cells_eq.symm)
          (fun other member => unwraps other (List.mem_cons_of_mem _ member))
          fun w member => isWrite w (Or.inr member)
      refine ⟨m', queue', ?_, ?_, apart'', ?_⟩
      · rw [List.foldlM_cons, patchField_eq stored, ok_bind]
        exact walkedRest
      · rw [cons_eq, nestedFields_cons, Set.union_insert, ← Set.insert_union,
          ← List.append_assoc]
        exact spread
      · intro valueType' value' nested' stored'
        rw [stored] at stored'
        cases stored'
        exact ⟨walked.extend_sorted apart reads field.1 nested, inOrder⟩

/-- The fields of a walked object. -/
theorem Walked.fields {fields : Object} (decoded : Decoded patch)
    (walked : Walked base time origin patch made pending m queue)
    (apart : Apart m (cur :: queue))
    (reads : cur.path.contents m.arrays = keys)
    (alone : keys.length < capacity keys.length → fields.length ≤ 1)
    (unwraps : ∀ field ∈ fields, ∃ result, unwrap field.2 = .ok result)
    (writes : ∀ w, FieldWrite (fields, keys) w → Writes patch w) :
    ∃ m' queue', fields.foldlM (patchField time origin cur.path) (m, queue) =
        .ok (m', queue') ∧
      Walked base time origin patch (made ∪ {w | FieldWrite (fields, keys) w})
        (pending ++ nestedFields keys fields) m' queue' ∧
      Apart m' queue' ∧ FieldsInOrder time origin cur.path m fields := by
  have grown := apart.grown cur (List.mem_cons_self ..)
  have length_eq : cur.path.length = keys.length := by
    rw [← reads, grown.toFits.length_contents]
  rcases grown.room_or_full with room | full
  · have hasRoom := room
    rw [grown.capacity_eq, length_eq] at hasRoom
    rcases fields with _ | ⟨field, _ | ⟨second, rest⟩⟩
    · refine ⟨m, queue, rfl, ?_, apart.tail, trivial⟩
      simpa [fieldWrites_nil, nestedFields] using walked
    · obtain ⟨⟨valueType, value, nested⟩, stored⟩ :=
        unwraps field (List.mem_singleton_self _)
      have cons_eq : {w | FieldWrite ([field], keys) w} =
          insert ⟨keys ++ [field.1], valueType, value⟩
            {w | FieldWrite (([] : Object), keys) w} := fieldWrites_cons stored
      have walked' := walked.store decoded apart reads stored
        (writes _ (cons_eq.symm.subset (Set.mem_insert ..)))
      have done : [field].foldlM (patchField time origin cur.path) (m, queue) =
          .ok ((m.nest cur.path field.1 nested).leaf time origin cur.path field.1
            valueType value, queue ++ m.nestedItems cur.path field.1 nested) := by
        rw [List.foldlM_cons, patchField_eq stored]
        rfl
      refine ⟨_, _, done, ?_, apart.field_of_room room, ?_⟩
      · rw [cons_eq, fieldWrites_nil, Set.union_insert, Set.union_empty]
        exact walked'
      · intro valueType' value' nested' stored'
        rw [stored] at stored'
        cases stored'
        exact ⟨walked.extend_sorted apart reads field.1 nested, trivial⟩
    · exact absurd (alone hasRoom) (by simp)
  · obtain ⟨m', queue', done, spread, apart', inOrder⟩ := walked.fields_of_full decoded
      apart reads full unwraps writes
    exact ⟨m', queue', done, spread, apart'.tail, inOrder⟩

/-- Every write of the patch was made or lies below a pending object. -/
def Covers (patch : Object) (made : Set Write) (pending : List Pending) : Prop :=
  ∀ front w, Reached patch front → FieldWrite front w →
    w ∈ made ∨ ∃ above ∈ pending, ReflTransGen Child above front

/-- The number of objects that are pending or below a pending one. -/
def weight (pending : List Pending) : Nat :=
  (pending.map fun front => 1 + fieldObjects front.1).sum

theorem fieldObjects_eq_sum (fields : Object) :
    fieldObjects fields = (fields.map fun field => field.2.objects).sum := by
  induction fields with
  | nil => rfl
  | cons field fields induction =>
      rw [fieldObjects, induction, List.map_cons, List.sum_cons]

/-- A nested object is the value that was unwrapped. -/
theorem eq_map_of_unwrap {value stored : Value} {valueType : MapValueType}
    {inner : Object} (unwrapped : unwrap value =
      .ok (valueType, stored, some inner)) : value = .map inner := by
  unfold unwrap at unwrapped
  split at unwrapped <;> simp_all [panicWith]

/-- The nested objects have no more objects in them than the fields. -/
theorem weight_nestedFields_le (keys : List String) (fields : Object) :
    weight (nestedFields keys fields) ≤ fieldObjects fields := by
  induction fields with
  | nil => exact Nat.zero_le _
  | cons field fields induction =>
      have head : weight (nestedFields keys [field]) ≤ field.2.objects := by
        rcases unwrapped : unwrap field.2 with abort | ⟨valueType, stored, nested⟩
        · simp [nestedFields, unwrapped, weight]
        · cases nested with
          | none => simp [nestedFields, unwrapped, weight]
          | some inner =>
              have objects_eq : field.2.objects = 1 + fieldObjects inner := by
                rw [eq_map_of_unwrap unwrapped, Value.objects]
              simp [nestedFields, unwrapped, weight, objects_eq]
      rw [nestedFields_cons, weight, List.map_append, List.sum_append,
        fieldObjects]
      exact Nat.add_le_add head induction

theorem fieldObjects_perm {listed fields : Object} (perm : listed.Perm fields) :
    fieldObjects listed = fieldObjects fields := by
  rw [fieldObjects_eq_sum, fieldObjects_eq_sum]
  exact (perm.map _).sum_eq

/-- Walking an object leaves the objects below it. -/
theorem Covers.step {fields listed : Object} {rest : List Pending}
    (covers : Covers patch made ((fields, keys) :: rest))
    (perm : listed.Perm fields) :
    Covers patch (made ∪ {w | FieldWrite (listed, keys) w})
      (rest ++ nestedFields keys listed) := by
  intro front w reached writes
  rcases covers front w reached writes with isMade | ⟨above, member, below⟩
  · exact Or.inl (Or.inl isMade)
  rcases List.mem_cons.mp member with rfl | inRest
  · rcases ReflTransGen.cases_head below with rfl | ⟨next, child, below⟩
    · obtain ⟨key, value, nested, inFields, stored⟩ := writes
      exact Or.inl (Or.inr ⟨key, value, nested, perm.mem_iff.mpr inFields, stored⟩)
    · obtain ⟨key, value, valueType, stored, inFields, nested⟩ := child
      refine Or.inr ⟨next, List.mem_append_right _ ?_, below⟩
      exact mem_nestedFields.mpr
        ⟨key, value, valueType, stored, perm.mem_iff.mpr inFields, nested⟩
  · exact Or.inr ⟨above, List.mem_append_left _ inRest, below⟩

/-- When nothing is pending all writes were made. -/
theorem Walked.finished
    (walked : Walked base time origin patch made pending m queue)
    (covers : Covers patch made pending) (isDone : pending = []) :
    queue = [] ∧ Walked base time origin patch {w | Writes patch w} [] m [] := by
  subst isDone
  obtain rfl : queue = [] := List.map_eq_nil_iff.mp walked.queued
  have all : made = {w | Writes patch w} := by
    refine Set.Subset.antisymm walked.writes ?_
    rintro w ⟨front, isReached, writes⟩
    simpa using covers front w isReached writes
  exact ⟨rfl, all ▸ walked⟩

/-- The loop makes all writes of the patch. -/
theorem Walked.patchLoop {order : FieldOrder} (decoded : Decoded patch)
    (separate : Separate patch)
    (walked : Walked base time origin patch made pending m queue)
    (apart : Apart m queue) (reached : ∀ front ∈ pending, Reached patch front)
    (covers : Covers patch made pending) {fuel : Nat}
    (enough : weight pending ≤ fuel) :
    ∃ m', patchLoop order time origin fuel queue m = .ok m' ∧
      Walked base time origin patch {w | Writes patch w} [] m' [] ∧
      Apart m' [] ∧ LoopInOrder order time origin fuel queue m := by
  induction fuel generalizing m queue made pending with
  | zero =>
      have isDone : pending = [] := by
        rcases pending with _ | ⟨front, rest⟩
        · rfl
        · simp [weight] at enough
      obtain ⟨rfl, spread⟩ := walked.finished covers isDone
      exact ⟨m, rfl, spread, apart, trivial⟩
  | succ fuel induction =>
      rcases queue with _ | ⟨cur, queue⟩
      · obtain ⟨-, spread⟩ := walked.finished covers walked.queued.symm
        exact ⟨m, rfl, spread, apart, trivial⟩
      obtain rfl := walked.queued
      have tail : Walked base time origin patch made
          (queue.map fun item => (item.m, item.path.contents m.arrays)) m queue :=
        ⟨walked.nil_grown, rfl, walked.sorted, walked.mem_entries, walked.writes⟩
      have isReached := reached _ (List.mem_cons_self ..)
      have perm := order.perm fuel cur.m
      set keys := cur.path.contents m.arrays with keys_eq
      obtain ⟨m', queue', done, spread, apart', inOrder⟩ := tail.fields decoded
        apart keys_eq.symm
        (fun room => perm.length_eq ▸ separate.alone _ isReached room)
        (fun field member =>
          separate.unwraps _ isReached field (perm.mem_iff.mp member))
        fun w ⟨key, value, nested, member, stored⟩ =>
          ⟨_, isReached, key, value, nested, perm.mem_iff.mp member, stored⟩
      have lighter : weight ((queue.map fun item =>
          (item.m, item.path.contents m.arrays)) ++
            nestedFields keys (order.fields fuel cur.m)) ≤ fuel := by
        have below := weight_nestedFields_le keys (order.fields fuel cur.m)
        rw [fieldObjects_perm perm] at below
        rw [weight, List.map_cons, List.map_cons, List.sum_cons] at enough
        rw [weight, List.map_append, List.sum_append]
        simp only [weight] at below enough ⊢
        omega
      have reached' : ∀ front ∈ (queue.map fun item =>
          (item.m, item.path.contents m.arrays)) ++
            nestedFields keys (order.fields fuel cur.m),
          Reached patch front := by
        intro front member
        rcases List.mem_append.mp member with old | isNested
        · exact reached front (List.mem_cons_of_mem _ old)
        · obtain ⟨key, value, valueType, stored, inFields, nested⟩ :=
            mem_nestedFields.mp isNested
          exact ReflTransGen.tail isReached ⟨key, value, valueType, stored,
            perm.mem_iff.mp inFields, nested⟩
      obtain ⟨m'', walkedRest, spread', apart'', restInOrder⟩ := induction spread apart'
        reached' (covers.step perm) lighter
      refine ⟨m'', by rw [Map.patchLoop, done, ok_bind]; exact walkedRest, spread', apart'', ?_⟩
      refine ⟨inOrder, fun m₁ queue₁ done₁ => ?_⟩
      rw [done] at done₁
      cases done₁
      exact restInOrder

end Walk

/-! ## Maps that read what was written -/

/-- The paths of the nodes fit their arrays, and the entries are in order. -/
structure Exact (m : Map) : Prop where
  nil_grown : Slice.nil.Grown m.arrays
  fits : ∀ node ∈ m.state, node.path.Fits m.arrays
  sorted : KeyedList.Sorted Entry.key m.entries

/-- A map without nodes is exact. -/
theorem newMap_exact : newMap.Exact where
  nil_grown := Slice.nil_grown
  fits := by simp [newMap]
  sorted := by simp [newMap, entries, KeyedList.Sorted]

/-- Applying a separate patch sets its writes, each among entries in order. -/
theorem Exact.applyPatchIn_inOrder {m : Map} {time : Int} {origin : String}
    {patch : Object} (exact : m.Exact) (order : FieldOrder)
    (decoded : Decoded patch) (separate : Separate patch) :
    (∃ m', m.applyPatchIn order time origin patch = .ok m' ∧ m'.Exact ∧
      ∀ e, e ∈ m'.entries ↔
        (e ∈ m.entries ∧ ∀ w, Writes patch w → (w.entry time origin).key ≠ e.key) ∨
          ∃ w, Writes patch w ∧ e = w.entry time origin) ∧
      LoopInOrder order time origin (fieldObjects patch + 1) [⟨patch, .nil⟩] m := by
  have apart : Apart m [⟨patch, .nil⟩] := by
    refine ⟨exact.fits, ?_, List.pairwise_singleton .., ?_⟩
    · rintro item member
      rw [List.mem_singleton.mp member]
      exact exact.nil_grown
    · intro item member node inState same
      obtain rfl := List.mem_singleton.mp member
      have fits := (exact.fits node inState).length_le
      rw [Slice.cells, same] at fits
      exact fits.trans_eq exact.nil_grown.capacity_eq
  have walked : Walked m time origin patch ∅ [(patch, [])] m [⟨patch, .nil⟩] :=
    ⟨exact.nil_grown, by simp, exact.sorted, by simp, by simp⟩
  have reached : ∀ front ∈ [(patch, [])], Reached patch front :=
    fun front member => List.mem_singleton.mp member ▸ ReflTransGen.refl
  have enough : weight [(patch, [])] ≤ fieldObjects patch + 1 := by
    simp [weight, Nat.add_comm]
  obtain ⟨m', applied, spread, apart', inOrder⟩ := walked.patchLoop decoded separate
    apart reached
    (fun front w below _ => Or.inr ⟨_, List.mem_singleton_self _, below⟩) enough
  refine ⟨⟨m', applied, ⟨spread.nil_grown, apart'.fits, spread.sorted⟩, ?_⟩, inOrder⟩
  exact fun e => spread.mem_entries e

/-- A separate patch adds its writes, and nothing else. -/
theorem Exact.applyPatchIn_entries {m : Map} {time : Int} {origin : String}
    {patch : Object} (exact : m.Exact) (order : FieldOrder)
    (decoded : Decoded patch) (separate : Separate patch) :
    ∃ m', m.applyPatchIn order time origin patch = .ok m' ∧ m'.Exact ∧
      ∀ e, e ∈ m'.entries ↔
        (e ∈ m.entries ∧ ∀ w, Writes patch w → (w.entry time origin).key ≠ e.key) ∨
          ∃ w, Writes patch w ∧ e = w.entry time origin :=
  (exact.applyPatchIn_inOrder order decoded separate).1

/-- Applying a separate patch with a new stamp adds its writes. -/
theorem Exact.applyPatchIn {m : Map} {time : Int} {origin : String}
    {patch : Object} (exact : m.Exact) (order : FieldOrder)
    (decoded : Decoded patch) (separate : Separate patch)
    (unstamped : m.Unstamped time origin) :
    ∃ m', m.applyPatchIn order time origin patch = .ok m' ∧ m'.Exact ∧
      ∀ e, e ∈ m'.entries ↔
        e ∈ m.entries ∨ ∃ w, Writes patch w ∧ e = w.entry time origin := by
  obtain ⟨m', applied, exact', entries⟩ :=
    exact.applyPatchIn_entries order decoded separate
  refine ⟨m', applied, exact', fun e => ?_⟩
  rw [entries]
  refine or_congr_left ⟨And.left, fun old => ⟨old, fun w _ same => ?_⟩⟩
  -- No old entry has the stamp of the writes.
  have stamps : (w.entry time origin).stamp = e.stamp :=
    (Prod.mk.inj (toLex_inj.mp same)).2
  have stamp_eq := Prod.mk.inj (toLex_inj.mp stamps)
  exact unstamped e old ⟨stamp_eq.1.symm, stamp_eq.2.symm⟩

end Map

/-- A patch with its timestamp and its origin. -/
structure Patch where
  time : Int
  origin : String
  fields : Object

/-- The time and the origin of a patch. -/
def Patch.stamp (patch : Patch) : Int ×ₗ String :=
  toLex (patch.time, patch.origin)

/-- Apply patches, each visiting fields in its own order. -/
def Map.applyAll (m : Map) (calls : List (FieldOrder × Patch)) : Outcome Map :=
  calls.foldlM (fun m call =>
    m.applyPatchIn call.1 call.2.time call.2.origin call.2.fields) m

/-- The entry was written by one of the patches. -/
def WrittenBy (patches : List Patch) (e : Entry) : Prop :=
  ∃ patch ∈ patches, ∃ w, Writes patch.fields w ∧
    e = w.entry patch.time patch.origin

namespace Map

section Converge

variable {m m' : Map} {calls calls' : List (FieldOrder × Patch)}

/-- Separate patches with different stamps add their writes, and nothing else. -/
theorem Exact.applyAll (exact : m.Exact)
    (decoded : ∀ call ∈ calls, Decoded call.2.fields)
    (separate : ∀ call ∈ calls, Separate call.2.fields)
    (distinct : (calls.map fun call => call.2.stamp).Nodup)
    (unstamped : ∀ call ∈ calls, m.Unstamped call.2.time call.2.origin) :
    ∃ m', m.applyAll calls = .ok m' ∧ m'.Exact ∧
      ∀ e, e ∈ m'.entries ↔
        e ∈ m.entries ∨ WrittenBy (calls.map Prod.snd) e := by
  induction calls generalizing m with
  | nil => exact ⟨m, rfl, exact, by simp [WrittenBy]⟩
  | cons call calls induction =>
      obtain ⟨m₁, applied, exact₁, entries₁⟩ := exact.applyPatchIn call.1
        (decoded call (List.mem_cons_self ..))
        (separate call (List.mem_cons_self ..))
        (unstamped call (List.mem_cons_self ..))
      obtain ⟨isFirst, distinct⟩ := List.nodup_cons.mp distinct
      have unstamped₁ : ∀ other ∈ calls,
          m₁.Unstamped other.2.time other.2.origin := by
        intro other member e inEntries same
        rcases (entries₁ e).mp inEntries with old | ⟨w, -, rfl⟩
        · exact unstamped other (List.mem_cons_of_mem _ member) e old same
        · refine isFirst (List.mem_map.mpr ⟨other, member, ?_⟩)
          exact congrArg toLex (Prod.ext same.1.symm same.2.symm)
      obtain ⟨m', appliedRest, exact', entries'⟩ := induction exact₁
        (fun other member => decoded other (List.mem_cons_of_mem _ member))
        (fun other member => separate other (List.mem_cons_of_mem _ member))
        distinct unstamped₁
      refine ⟨m', ?_, exact', fun e => ?_⟩
      · rw [Map.applyAll, List.foldlM_cons, applied, ok_bind]
        exact appliedRest
      · rw [entries', entries₁, or_assoc]
        simp [WrittenBy]

/-- What a map reads depends on its entries only. -/
theorem reads_congr (same : m'.entries = m.entries) (path : List String) :
    m'.get path = m.get path ∧ m'.getWithOrigin path = m.getWithOrigin path ∧
      m'.list path = m.list path ∧ m'.keys path = m.keys path := by
  refine ⟨?_, ?_, ?_, ?_⟩
  · rw [get, get, same]
  · rw [getWithOrigin, getWithOrigin, same]
  · rw [list, list, forEachListChunk, forEachListChunk, same]
  · rw [keys, keys, same]

/-- Reading the greatest entry of a path. -/
theorem Exact.get_eq (exact : m.Exact) {e : Entry} (member : e ∈ m.entries)
    (inRange : e.stamp ≤ toLex (maxInt64, ""))
    (greatest : ∀ other ∈ m.entries, other.path = e.path →
      other.stamp ≤ e.stamp)
    (readable : e.valueType = .primitive ∨ e.valueType = .atomicMap) :
    m.get e.path = some e.value := by
  have head : (KeyedList.descend Entry.key (pivot e.path maxInt64)
      m.entries).head? = some e := by
    refine KeyedList.head?_descend exact.sorted member
      (le_pivot_iff.mpr (Or.inr ⟨rfl, inRange⟩)) fun other isEntry below => ?_
    rcases le_pivot_iff.mp below with smaller | ⟨sameGroup, -⟩
    · exact (KeyedList.groupKey_lt_iff.mpr (Or.inl smaller)).le
    · have samePath := group_eq_iff.mp sameGroup
      refine Prod.Lex.le_iff.mpr (Or.inr ⟨sameGroup, ?_⟩)
      exact greatest other isEntry samePath
  simp [get, head, readable]

end Converge

end Map

/--
Patches with different stamps give maps that read the same, in whatever order
they are applied and their fields are visited; the greatest write of a path is
what is read there, if it is not behind the stamp from which `Get` searches.
-/
theorem patches_converge {calls calls' : List (FieldOrder × Patch)}
    (perm : (calls.map Prod.snd).Perm (calls'.map Prod.snd))
    (distinct : (calls.map fun call => call.2.stamp).Nodup)
    (decoded : ∀ call ∈ calls, Decoded call.2.fields)
    (separate : ∀ call ∈ calls, Separate call.2.fields) :
    ∃ m m', newMap.applyAll calls = .ok m ∧ newMap.applyAll calls' = .ok m' ∧
      (∀ path, m'.get path = m.get path ∧
        m'.getWithOrigin path = m.getWithOrigin path ∧
        m'.list path = m.list path ∧ m'.keys path = m.keys path) ∧
      ∀ patch ∈ calls.map Prod.snd, ∀ w, Writes patch.fields w →
        (∀ patch' ∈ calls.map Prod.snd, ∀ w', Writes patch'.fields w' →
          w'.path = w.path → patch'.stamp ≤ patch.stamp) →
        (w.valueType = .primitive ∨ w.valueType = .atomicMap) →
          patch.stamp ≤ toLex (maxInt64, "") → m.get w.path = some w.value := by
  have unstamped : ∀ time origin, newMap.Unstamped time origin := by
    simp [Map.Unstamped, newMap, Map.entries]
  have call_of : ∀ call ∈ calls', ∃ other ∈ calls, other.2 = call.2 := by
    intro call member
    have isPatch := perm.mem_iff.mpr (List.mem_map_of_mem (f := Prod.snd) member)
    exact List.mem_map.mp isPatch
  obtain ⟨m, applied, exact, entries⟩ := Map.newMap_exact.applyAll decoded
    separate distinct fun call _ => unstamped _ _
  have decoded' : ∀ call ∈ calls', Decoded call.2.fields := by
    intro call member
    obtain ⟨other, isCall, same⟩ := call_of call member
    exact same ▸ decoded other isCall
  have separate' : ∀ call ∈ calls', Separate call.2.fields := by
    intro call member
    obtain ⟨other, isCall, same⟩ := call_of call member
    exact same ▸ separate other isCall
  have distinct' : (calls'.map fun call => call.2.stamp).Nodup := by
    have stamps := perm.map Patch.stamp
    rw [List.map_map, List.map_map] at stamps
    exact stamps.nodup_iff.mp distinct
  obtain ⟨m', applied', exact', entries'⟩ := Map.newMap_exact.applyAll decoded'
    separate' distinct' fun call _ => unstamped _ _
  have same : m'.entries = m.entries := by
    refine exact'.sorted.eq_of_mem_iff exact.sorted fun e => ?_
    rw [entries, entries', WrittenBy, WrittenBy]
    simp only [perm.mem_iff]
  refine ⟨m, m', applied, applied', Map.reads_congr same, ?_⟩
  intro patch member w writes greatest readable inRange
  obtain ⟨call, isCall, rfl⟩ := List.mem_map.mp member
  refine exact.get_eq
    ((entries (w.entry call.2.time call.2.origin)).mpr (Or.inr ⟨_, member, w, writes, rfl⟩))
    inRange ?_ readable
  intro other isEntry samePath
  rcases (entries other).mp isEntry with old | ⟨patch', member', w', writes', rfl⟩
  · simp [newMap, Map.entries] at old
  · exact greatest patch' member' w' writes' samePath

/-! ## Sample patches -/

theorem below_iff {above front : Pending} :
    ReflTransGen Child above front ↔ front = above ∨
      ∃ next ∈ Map.nestedFields above.2 above.1,
        ReflTransGen Child next front := by
  rw [ReflTransGen.cases_head_iff]
  refine or_congr eq_comm (exists_congr fun next => ?_)
  rw [Map.mem_nestedFields]

/-- Nested objects with one and with two fields. -/
def samplePatch : Object :=
  [("meta", .map [("color", .string "red"), ("size", .int 2)]),
    ("title", .string "one")]

theorem reached_samplePatch {front : Pending} (reached : Reached samplePatch front) :
    front = (samplePatch, []) ∨
      front = ([("color", .string "red"), ("size", .int 2)], ["meta"]) := by
  rw [Reached, below_iff] at reached
  rcases reached with same | ⟨next, member, below⟩
  · exact Or.inl same
  · obtain rfl : next = ([("color", .string "red"), ("size", .int 2)],
        ["meta"]) := by
      simpa [samplePatch, Map.nestedFields, unwrap] using member
    rw [below_iff] at below
    simpa [Map.nestedFields, unwrap] using Or.inr (a := _) below

/-- The fields from the last one to the first one. -/
def FieldOrder.reversed : FieldOrder :=
  ⟨fun _ object => object.reverse, fun _ object => object.reverse_perm⟩

theorem samplePatch_decoded : Decoded samplePatch := by
  intro front reached
  rcases reached_samplePatch reached with rfl | rfl <;> decide

theorem samplePatch_separate : Separate samplePatch where
  unwraps := fun front reached => by
    rcases reached_samplePatch reached with rfl | rfl <;>
      simp [samplePatch, unwrap]
  alone := fun front reached => by
    rcases reached_samplePatch reached with rfl | rfl <;> decide

/-- The patch of Alice is applied before or after the same patch of Bob. -/
theorem patches_converge_samplePatch :
    ∃ m m', newMap.applyAll [(.listed, ⟨1, "alice", samplePatch⟩),
        (.listed, ⟨2, "bob", samplePatch⟩)] = .ok m ∧
      newMap.applyAll [(.reversed, ⟨2, "bob", samplePatch⟩),
        (.reversed, ⟨1, "alice", samplePatch⟩)] = .ok m' ∧
      ∀ path, m'.get path = m.get path ∧
        m'.getWithOrigin path = m.getWithOrigin path ∧
        m'.list path = m.list path ∧ m'.keys path = m.keys path := by
  obtain ⟨m, m', applied, applied', same, -⟩ := @patches_converge
    [(.listed, ⟨1, "alice", samplePatch⟩), (.listed, ⟨2, "bob", samplePatch⟩)]
    [(.reversed, ⟨2, "bob", samplePatch⟩),
      (.reversed, ⟨1, "alice", samplePatch⟩)]
    (.swap ..) (by decide) (by simpa using samplePatch_decoded)
    (by simpa using samplePatch_separate)
  exact ⟨m, m', applied, applied', same⟩

/-- Two fields of an object with three keys in its path. -/
def deepPatch : Object :=
  [("a", .map [("b", .map [("c", .map [("x", .int 1), ("y", .int 2)])])])]

/--
The two fields share a cell of their array: only the field that is visited
last can be read, so the order of the visits matters.
-/
theorem deepPatch_diverges :
    ∃ m m', newMap.applyAll [(.listed, ⟨1, "alice", deepPatch⟩)] = .ok m ∧
      newMap.applyAll [(.reversed, ⟨1, "alice", deepPatch⟩)] = .ok m' ∧
      m.get ["a", "b", "c", "x"] = none ∧
      m'.get ["a", "b", "c", "x"] = some (.int 1) ∧
      m.get ["a", "b", "c", "y"] = some (.int 2) ∧
      m'.get ["a", "b", "c", "y"] = none :=
  ⟨_, _, rfl, rfl, rfl, rfl, rfl, rfl⟩

end Mintter.Crdt2
