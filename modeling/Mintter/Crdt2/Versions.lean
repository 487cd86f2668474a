import Mintter.Crdt2.Map

/-!
# What a patch writes

The versions of a path are the entries written at exactly that path, in the
order of their stamps.  `writes` lists the writes of a patch in the order in
which they are made, with paths that share nothing.  For paths of at most three
keys a map behaves as if every write of the list were set at its path
(`applyPatch_spec`): up to that depth appending to the path of an object copies
it, so no two fields share an array that is written again.
-/

namespace Mintter.Crdt2

open Mintter.Foundation

/-! ## The abstract writes -/

/-- One write of a patch. -/
structure Write where
  path : List String
  valueType : MapValueType
  value : Value
deriving DecidableEq

/-- An object to be walked, with its path. -/
abbrev Pending := Object × List String

/-- List the write of a field, and queue its object if it has one. -/
def fieldWrite (path : List String) (acc : List Write × List Pending)
    (field : String × Value) : Outcome (List Write × List Pending) := do
  let (valueType, value, nested) ← unwrap field.2
  let queue := match nested with
    | some fields => acc.2 ++ [(fields, path ++ [field.1])]
    | none => acc.2
  pure (acc.1 ++ [⟨path ++ [field.1], valueType, value⟩], queue)

/-- List the writes of one pending object after the other. -/
def writesLoop : Nat → List Pending → List Write → Outcome (List Write)
  | _, [], ws => pure ws
  | 0, _ :: _, _ => .error .outOfFuel
  | fuel + 1, cur :: queue, ws => do
      let (ws, queue) ← cur.1.foldlM (fieldWrite cur.2) (ws, queue)
      writesLoop fuel queue ws

/-- The writes of the objects that are pending when fields are visited in an order. -/
def writesLoopIn (order : FieldOrder) : Nat → List Pending → List Write → Outcome (List Write)
  | _, [], ws => pure ws
  | 0, _ :: _, _ => .error .outOfFuel
  | fuel + 1, cur :: queue, ws => do
      let (ws, queue) ← (order.fields fuel cur.1).foldlM (fieldWrite cur.2) (ws, queue)
      writesLoopIn order fuel queue ws

theorem writesLoopIn_listed (fuel : Nat) (pending : List Pending) (ws : List Write) :
    writesLoopIn .listed fuel pending ws = writesLoop fuel pending ws := by
  induction fuel generalizing pending ws with
  | zero => cases pending <;> rfl
  | succ fuel induction =>
      cases pending with
      | nil => rfl
      | cons cur queue =>
          rw [writesLoopIn, writesLoop, FieldOrder.listed_fields]
          simp only [induction]

/-- The writes of a patch, breadth first. -/
def writes (patch : Object) : Outcome (List Write) :=
  writesLoop (fieldObjects patch + 1) [(patch, [])] []

/-- The entry of a write at a time and an origin. -/
def Write.entry (w : Write) (time : Int) (origin : String) : Entry :=
  ⟨w.path, time, origin, w.valueType, w.value⟩

/-- The versions of a path after the writes at that path were set. -/
def overwrite (time : Int) (origin : String) (path : List String)
    (ws : List Write) (versions : List Entry) : List Entry :=
  (ws.filter fun w => w.path = path).foldl
    (fun versions w => KeyedList.set Entry.key (w.entry time origin) versions)
    versions

/-- The last write of a path is set over the versions before it. -/
theorem overwrite_append {time : Int} {origin : String} {path : List String}
    {ws : List Write} {versions : List Entry} (w : Write) :
    overwrite time origin path (ws ++ [w]) versions =
      if w.path = path then
        KeyedList.set Entry.key (w.entry time origin)
          (overwrite time origin path ws versions)
      else overwrite time origin path ws versions := by
  rw [overwrite, List.filter_append, List.foldl_append]
  by_cases same : w.path = path <;> simp [same, overwrite]

/-- Versions of a path after a patch are old ones or carry its stamp. -/
theorem mem_overwrite {time : Int} {origin : String} {p : List String}
    {ws : List Write} {versions : List Entry} {entry : Entry}
    (member : entry ∈ overwrite time origin p ws versions) :
    entry ∈ versions ∨ entry.time = time := by
  induction ws using List.reverseRecOn with
  | nil => exact Or.inl (by simpa [overwrite] using member)
  | append_singleton ws w induction =>
      rw [overwrite_append] at member
      split_ifs at member
      · rcases KeyedList.mem_set_subset member with rfl | old
        · exact Or.inr rfl
        · exact induction old
      · exact induction member

/-! ## Sound maps -/

namespace Map

/-- The entries at exactly this path. -/
def versions (m : Map) (path : List String) : List Entry :=
  m.entries.filter fun e => e.path = path

/--
Nodes read existing arrays, and entries with at most three keys stand in
order after smaller ones.
-/
structure Sound (m : Map) : Prop where
  nil_grown : Slice.nil.Grown m.arrays
  fits : ∀ node ∈ m.state, node.path.Fits m.arrays
  ordered : m.entries.Pairwise fun first second =>
    second.path.length ≤ 3 → first.key < second.key

/-- A map without nodes is sound. -/
theorem newMap_sound : newMap.Sound where
  nil_grown := Slice.nil_grown
  fits := by simp [newMap]
  ordered := by simp [newMap, entries]

section Step

variable {m : Map} {path : Slice} {keys p : List String} {time : Int}
    {origin : String}

theorem Sound.length_read (sound : m.Sound) {node : MapNode}
    (member : node ∈ m.state) :
    (m.read node).path.length = node.path.length :=
  (sound.fits node member).length_contents

theorem key_lt_length {first second : Entry} (less : first.key < second.key) :
    first.path.length ≤ second.path.length := by
  rcases KeyedList.groupKey_lt_iff.mp less with smaller | ⟨same, -⟩
  · rcases Prod.Lex.lt_iff.mp smaller with shorter | ⟨sameLength, -⟩
    · exact shorter.le
    · exact sameLength.le
  · exact (Prod.mk.inj (toLex_inj.mp same)).1.le

/-- Entries with the same key have the same path. -/
theorem path_eq_of_key_eq {first second : Entry}
    (same : first.key = second.key) : first.path = second.path := by
  have groups : first.group = second.group := (Prod.mk.inj (toLex_inj.mp same)).1
  exact (Prod.mk.inj (toLex_inj.mp groups)).2

/-- Growing the path of an object changes no version of a short path. -/
theorem Sound.append (sound : m.Sound) (grown : path.Grown m.arrays)
    (key : String) :
    Sound { m with arrays := (path.append m.arrays key).1 } ∧
      ∀ p : List String, p.length ≤ 3 →
        versions { m with arrays := (path.append m.arrays key).1 } p =
          m.versions p := by
  set m' : Map := { m with arrays := (path.append m.arrays key).1 } with m'_eq
  have sameRead : ∀ node ∈ m.state, node.path.length ≤ 3 →
      m'.read node = m.read node := by
    intro node member short
    have same := grown.contents_of_short (sound.fits node member) short key
    rw [read, read, m'_eq, same]
  have fits' : ∀ node ∈ m.state, node.path.Fits m'.arrays :=
    fun node member =>
      (grown.toFits.of_append (sound.fits node member) key).1
  have sameLength : ∀ node ∈ m.state,
      (m'.read node).path.length = node.path.length :=
    fun node member => (fits' node member).length_contents
  refine ⟨⟨sound.nil_grown.of_append grown.toFits key, fits', ?_⟩, ?_⟩
  · have old := List.pairwise_map.mp sound.ordered
    refine List.pairwise_map.mpr (old.imp_of_mem ?_)
    intro first second isFirst isSecond ordered short
    have shortSecond : second.path.length ≤ 3 := by
      rwa [sameLength second isSecond] at short
    have less := ordered (by rwa [sound.length_read isSecond])
    have shortFirst : first.path.length ≤ 3 := by
      have shorter := key_lt_length less
      rw [sound.length_read isFirst, sound.length_read isSecond] at shorter
      exact shorter.trans shortSecond
    rwa [sameRead first isFirst shortFirst, sameRead second isSecond shortSecond]
  · intro p short
    simp only [versions, entries, List.filter_map]
    have kept : ∀ node ∈ m.state, ((m'.read node).path = p ↔
        (m.read node).path = p) := by
      intro node member
      by_cases isShort : node.path.length ≤ 3
      · rw [sameRead node member isShort]
      · have long := sameLength node member
        have long' := sound.length_read member
        constructor <;> rintro rfl <;> omega
    have filters : m.state.filter
          ((fun e : Entry => decide (e.path = p)) ∘ m'.read) =
        m.state.filter ((fun e : Entry => decide (e.path = p)) ∘ m.read) :=
      List.filter_congr fun node member => by simp [kept node member]
    change (m.state.filter _).map m'.read = _
    rw [filters]
    refine List.map_congr_left fun node member => ?_
    obtain ⟨present, named⟩ := List.mem_filter.mp member
    refine sameRead node present ?_
    have : (m.read node).path = p := by simpa using named
    rw [← sound.length_read present, this]
    exact short

/-- Setting a node sets its entry. -/
theorem entries_setNode (m : Map) (time : Int) (origin : String)
    (path : Slice) (valueType : MapValueType) (value : Value) :
    (m.setNode time origin path valueType value).entries =
      KeyedList.set Entry.key
        ⟨path.contents m.arrays, time, origin, valueType, value⟩ m.entries :=
  KeyedList.map_set m.read ⟨path, time, origin, valueType, value⟩ m.state

theorem ordered_set {items : List Entry} (e : Entry)
    (ordered : items.Pairwise fun first second =>
      second.path.length ≤ 3 → first.key < second.key) :
    (KeyedList.set Entry.key e items).Pairwise fun first second =>
      second.path.length ≤ 3 → first.key < second.key := by
  induction items with
  | nil => simp [KeyedList.set]
  | cons head rest induction =>
      obtain ⟨smaller, orderedRest⟩ := List.pairwise_cons.mp ordered
      rw [KeyedList.set]
      split_ifs with less same
      · refine List.pairwise_cons.mpr ⟨fun next member short => ?_, ordered⟩
        rcases List.mem_cons.mp member with rfl | inRest
        · exact less
        · exact less.trans (smaller next inRest short)
      · refine List.pairwise_cons.mpr ⟨fun next member short => ?_, orderedRest⟩
        exact same ▸ smaller next member short
      · refine List.pairwise_cons.mpr
          ⟨fun next member short => ?_, induction orderedRest⟩
        rcases KeyedList.mem_set_subset member with rfl | inRest
        · exact lt_of_le_of_ne (not_lt.mp less) (Ne.symm same)
        · exact smaller next inRest short

/-- Setting a node sets one version of its path. -/
theorem Sound.setNode (sound : m.Sound) (fits : path.Fits m.arrays)
    (time : Int) (origin : String) (valueType : MapValueType) (value : Value) :
    (m.setNode time origin path valueType value).Sound ∧
      ∀ p : List String, p.length ≤ 3 →
        (m.setNode time origin path valueType value).versions p =
          if path.contents m.arrays = p then
            KeyedList.set Entry.key
              ⟨path.contents m.arrays, time, origin, valueType, value⟩
              (m.versions p)
          else m.versions p := by
  refine ⟨⟨sound.nil_grown, ?_, ?_⟩, ?_⟩
  · intro node member
    rcases KeyedList.mem_set_subset member with rfl | old
    · exact fits
    · exact sound.fits node old
  · rw [entries_setNode]
    exact ordered_set _ sound.ordered
  · intro p short
    rw [versions, entries_setNode, KeyedList.filter_set]
    · simp only [decide_eq_true_eq]
      rfl
    · intro first second same
      rw [path_eq_of_key_eq same]
    · refine sound.ordered.imp fun ordered isPath => ordered ?_
      rw [of_decide_eq_true isPath]
      exact short

end Step

/-! ## The queue -/

/-- A queued object; its path reads as the listed one as long as it is short. -/
structure Queued (m : Map) (item : PatchItem) (pending : Pending) : Prop where
  fields_eq : item.m = pending.1
  grown : item.path.Grown m.arrays
  length_eq : item.path.length = pending.2.length
  reads : pending.2.length ≤ 3 → item.path.contents m.arrays = pending.2

/-- The map and its queue after the writes `ws`, started from `base`. -/
structure Follows (base : Map) (time : Int) (origin : String)
    (ws : List Write) (pending : List Pending) (m : Map)
    (queue : List PatchItem) : Prop where
  sound : m.Sound
  queued : List.Forall₂ (Queued m) queue pending
  versions_eq : ∀ p : List String, p.length ≤ 3 →
    m.versions p = overwrite time origin p ws (base.versions p)

section Loop

variable {base m : Map} {time : Int} {origin : String} {ws : List Write}
    {pending : List Pending} {queue : List PatchItem} {cur item : PatchItem}
    {fields : Object} {keys : List String}

theorem Queued.append {front : Pending} (queued : Queued m item front)
    (grown : cur.path.Grown m.arrays) (key : String) :
    Queued { m with arrays := (cur.path.append m.arrays key).1 } item front where
  fields_eq := queued.fields_eq
  grown := queued.grown.of_append grown.toFits key
  length_eq := queued.length_eq
  reads := fun short => by
    rw [grown.contents_of_short queued.grown.toFits
      (queued.length_eq.trans_le short) key]
    exact queued.reads short

/-- The path of a field, appended to the path of its object. -/
theorem Queued.child (queued : Queued m cur (fields, keys)) (key : String)
    (nested : Object) :
    Queued { m with arrays := (cur.path.append m.arrays key).1 }
      ⟨nested, (cur.path.append m.arrays key).2⟩
      (nested, keys ++ [key]) where
  fields_eq := rfl
  grown := (queued.grown.append key).1
  length_eq := by simp [queued.length_eq]
  reads := fun short => by
    rw [(queued.grown.append key).2, queued.reads]
    simp only [List.length_append, List.length_singleton] at short
    exact Nat.le_of_succ_le short

/-- Storing a field at the appended path is one write. -/
theorem Follows.store
    (follows : Follows base time origin ws pending m queue)
    (queued : Queued m cur (fields, keys)) (key : String)
    (valueType : MapValueType) (value : Value) :
    Follows base time origin
      (ws ++ [⟨keys ++ [key], valueType, value⟩]) pending
      (setNode { m with arrays := (cur.path.append m.arrays key).1 } time
        origin (cur.path.append m.arrays key).2 valueType value) queue := by
  obtain ⟨sound, versions_eq⟩ := follows.sound.append queued.grown key
  have leaf := queued.child key []
  obtain ⟨sound', stored⟩ :=
    sound.setNode leaf.grown.toFits time origin valueType value
  refine ⟨sound', ?_, fun p short => ?_⟩
  · exact follows.queued.imp fun _ _ old => by
      have := old.append queued.grown key
      exact ⟨this.fields_eq, this.grown, this.length_eq, this.reads⟩
  · rw [stored p short, versions_eq p short, follows.versions_eq p short,
      overwrite_append]
    have reads := leaf.reads
    by_cases shortLeaf : (keys ++ [key]).length ≤ 3
    · rw [reads shortLeaf]
      rfl
    · have long : keys ++ [key] ≠ p := by
        rintro rfl
        exact shortLeaf short
      have longRead : (cur.path.append m.arrays key).2.contents
          (cur.path.append m.arrays key).1 ≠ p := by
        rintro rfl
        have := leaf.grown.toFits.length_contents
        rw [leaf.length_eq] at this
        exact shortLeaf (this ▸ short)
      rw [if_neg long, if_neg longRead]

/-- Writing one field follows the listed write. -/
theorem patchField_spec
    (follows : Follows base time origin ws pending m queue)
    (queued : Queued m cur (fields, keys)) (field : String × Value) :
    match fieldWrite keys (ws, pending) field with
    | .error abort =>
        patchField time origin cur.path (m, queue) field = .error abort
    | .ok (ws', pending') => ∃ m' queue',
        patchField time origin cur.path (m, queue) field = .ok (m', queue') ∧
          Follows base time origin ws' pending' m' queue' ∧
          Queued m' cur (fields, keys) := by
  rw [fieldWrite, patchField]
  rcases unwrap field.2 with abort | ⟨valueType, value, nested⟩
  · rfl
  · cases nested with
    | none =>
        refine ⟨_, _, rfl, follows.store queued field.1 valueType value, ?_⟩
        have := queued.append queued.grown field.1
        exact ⟨this.fields_eq, this.grown, this.length_eq, this.reads⟩
    | some inner =>
        have grown := queued.grown
        have queued' := queued.append grown field.1
        have follows' : Follows base time origin ws
            (pending ++ [(inner, keys ++ [field.1])])
            { m with arrays := (cur.path.append m.arrays field.1).1 }
            (queue ++ [⟨inner, (cur.path.append m.arrays field.1).2⟩]) := by
          obtain ⟨sound, versions_eq⟩ := follows.sound.append grown field.1
          refine ⟨sound, ?_, fun p short =>
            (versions_eq p short).trans (follows.versions_eq p short)⟩
          refine List.rel_append (follows.queued.imp fun _ _ old =>
            old.append grown field.1) ?_
          exact .cons (queued.child field.1 inner) .nil
        refine ⟨_, _, rfl, follows'.store queued' field.1 valueType value, ?_⟩
        have := queued'.append queued'.grown field.1
        exact ⟨this.fields_eq, this.grown, this.length_eq, this.reads⟩

/-- Writing all fields of an object follows the listed writes. -/
theorem patchFields_spec (rest : Object)
    (follows : Follows base time origin ws pending m queue)
    (queued : Queued m cur (fields, keys)) :
    match rest.foldlM (fieldWrite keys) (ws, pending) with
    | .error abort =>
        rest.foldlM (patchField time origin cur.path) (m, queue) = .error abort
    | .ok (ws', pending') => ∃ m' queue',
        rest.foldlM (patchField time origin cur.path) (m, queue) =
            .ok (m', queue') ∧
          Follows base time origin ws' pending' m' queue' := by
  induction rest generalizing ws pending m queue with
  | nil => exact ⟨m, queue, rfl, follows⟩
  | cons field rest induction =>
      have step := patchField_spec follows queued field
      rw [List.foldlM_cons, List.foldlM_cons]
      rcases written : fieldWrite keys (ws, pending) field with
        abort | ⟨ws', pending'⟩
      · rw [written] at step
        rw [show patchField time origin cur.path (m, queue) field =
          .error abort from step]
        rfl
      · rw [written] at step
        obtain ⟨m', queue', stepped, follows', queued'⟩ := step
        rw [stepped, ok_bind, ok_bind]
        exact induction follows' queued'

/-- The loop follows the list of the writes, also into an abort. -/
theorem patchLoop_spec (order : FieldOrder) (fuel : Nat)
    (follows : Follows base time origin ws pending m queue) :
    match writesLoopIn order fuel pending ws with
    | .error abort => patchLoop order time origin fuel queue m = .error abort
    | .ok ws' => ∃ m', patchLoop order time origin fuel queue m = .ok m' ∧
        m'.Sound ∧ ∀ p : List String, p.length ≤ 3 →
          m'.versions p = overwrite time origin p ws' (base.versions p) := by
  induction fuel generalizing ws pending m queue with
  | zero =>
      obtain ⟨sound, queued, versions_eq⟩ := follows
      cases queued with
      | nil => exact ⟨m, rfl, sound, versions_eq⟩
      | cons first rest => rfl
  | succ fuel induction =>
      obtain ⟨sound, queued, versions_eq⟩ := follows
      cases queued with
      | nil => exact ⟨m, rfl, sound, versions_eq⟩
      | @cons cur front queue pending first rest =>
          obtain ⟨fields, keys⟩ := front
          have step := patchFields_spec (order.fields fuel cur.m)
            ⟨sound, rest, versions_eq⟩ first
          rw [first.fields_eq] at step
          rw [writesLoopIn, patchLoop, first.fields_eq]
          rcases written : (order.fields fuel fields).foldlM (fieldWrite keys)
            (ws, pending) with abort | ⟨ws', pending'⟩
          · rw [written] at step
            rw [show (order.fields fuel fields).foldlM (patchField time origin cur.path)
              (m, queue) = .error abort from step]
            rfl
          · rw [written] at step
            obtain ⟨m', queue', stepped, follows'⟩ := step
            rw [stepped, ok_bind, ok_bind]
            exact induction follows'

/--
Applying a patch sets its writes, as far as paths of at most three keys are
concerned, and it fails as listing the writes does.
-/
theorem applyPatchIn_spec (sound : base.Sound) (order : FieldOrder) (time : Int)
    (origin : String) (patch : Object) :
    match writesLoopIn order (fieldObjects patch + 1) [(patch, [])] [] with
    | .error abort => base.applyPatchIn order time origin patch = .error abort
    | .ok ws => ∃ m', base.applyPatchIn order time origin patch = .ok m' ∧
        m'.Sound ∧ ∀ p : List String, p.length ≤ 3 →
          m'.versions p = overwrite time origin p ws (base.versions p) :=
  patchLoop_spec order _ {
    sound := sound
    queued := .cons ⟨rfl, sound.nil_grown, rfl, fun _ => Slice.contents_nil _⟩
      .nil
    versions_eq := fun _ _ => rfl }

/--
A patch aborts if its writes cannot be listed; otherwise it overwrites the versions of each path.
-/
theorem applyPatch_spec (sound : base.Sound) (time : Int) (origin : String)
    (patch : Object) :
    match writes patch with
    | .error abort => base.applyPatch time origin patch = .error abort
    | .ok ws => ∃ m', base.applyPatch time origin patch = .ok m' ∧
        m'.Sound ∧ ∀ p : List String, p.length ≤ 3 →
          m'.versions p = overwrite time origin p ws (base.versions p) := by
  have spec := applyPatchIn_spec sound .listed time origin patch
  rw [writesLoopIn_listed] at spec
  exact spec

end Loop

/-! ## Reading versions -/

end Map

/-- What `get` returns for the last entry of its path. -/
def Entry.readable (e : Entry) : Option Value :=
  if e.valueType = .primitive ∨ e.valueType = .atomicMap then some e.value
  else none

namespace Map

section Read

variable {m : Map} {p : List String}

/-- The versions of a path are its entries. -/
theorem mem_versions {e : Entry} :
    e ∈ m.versions p ↔ e ∈ m.entries ∧ e.path = p := by
  simp [versions]

theorem pivot_le_iff {e : Entry} {time : Int} :
    pivot p time ≤ e.key ↔ pathKey p < e.group ∨
      pathKey p = e.group ∧ toLex (time, "") ≤ e.stamp :=
  Prod.Lex.le_iff

theorem le_pivot_iff {e : Entry} {time : Int} :
    e.key ≤ pivot p time ↔ e.group < pathKey p ∨
      e.group = pathKey p ∧ e.stamp ≤ toLex (time, "") :=
  Prod.Lex.le_iff

/-- Entries of one group have one path. -/
theorem group_eq_iff {e : Entry} : e.group = pathKey p ↔ e.path = p := by
  constructor
  · exact fun same => (Prod.mk.inj (toLex_inj.mp same)).2
  · rintro rfl
    rfl

theorem short_of_group_le {e : Entry} (short : p.length ≤ 3)
    (below : e.group ≤ pathKey p) : e.path.length ≤ 3 := by
  rcases Prod.Lex.le_iff.mp below with shorter | ⟨same, -⟩
  · exact shorter.le.trans short
  · exact same.le.trans short

theorem group_le_of_key_lt {first second : Entry}
    (less : first.key < second.key) : first.group ≤ second.group := by
  rcases KeyedList.groupKey_lt_iff.mp less with smaller | ⟨same, -⟩
  · exact smaller.le
  · exact same.le

/-- `get` reads the last version of the path that its pivot reaches. -/
theorem Sound.get_eq_reached (sound : m.Sound) (short : p.length ≤ 3) (named : p ≠ []) :
    m.get p = ((m.versions p).filter fun e =>
      e.stamp ≤ toLex (maxInt64, "")).getLast?.bind Entry.readable := by
  set below := m.entries.filter fun e => e.key ≤ pivot p maxInt64 with below_eq
  set reached := (m.versions p).filter fun e => e.stamp ≤ toLex (maxInt64, "")
    with reached_eq
  -- The versions of the path are the greatest entries below the pivot.
  have last : below.Pairwise fun first second =>
      ((!decide (second.path = p)) = true → (!decide (first.path = p)) = true) := by
    refine (sound.ordered.sublist List.filter_sublist).imp_of_mem ?_
    intro first second _ isSecond ordered differs
    have inBelow : second.key ≤ pivot p maxInt64 := by
      simpa using (List.mem_filter.mp isSecond).2
    have secondLe : second.group ≤ pathKey p := by
      rcases le_pivot_iff.mp inBelow with less | ⟨same, -⟩
      · exact less.le
      · exact same.le
    simp only [Bool.not_eq_true', decide_eq_false_iff_not] at differs ⊢
    rintro isPath
    have less := ordered (short_of_group_le short secondLe)
    exact differs (group_eq_iff.mp (le_antisymm secondLe
      (group_eq_iff.mpr isPath ▸ group_le_of_key_lt less)))
  have versions_eq : below.filter (fun e => !!decide (e.path = p)) = reached := by
    rw [below_eq, reached_eq, List.filter_filter, versions, List.filter_filter]
    refine List.filter_congr fun e _ => ?_
    by_cases isPath : e.path = p
    · have inReach : e.key ≤ pivot p maxInt64 ↔ e.stamp ≤ toLex (maxInt64, "") := by
        rw [le_pivot_iff]
        have same := group_eq_iff.mpr isPath
        simp [same]
      simp [isPath, inReach]
    · simp [isPath]
  have split := KeyedList.eq_filter_append last
  rw [versions_eq] at split
  have found : (KeyedList.descend Entry.key (pivot p maxInt64) m.entries).head? =
      below.getLast? := by
    rw [KeyedList.descend, List.head?_reverse]
  rw [get, found, split]
  rcases List.eq_nil_or_concat reached with none | ⟨front, e, some_eq⟩
  · rw [none, List.append_nil]
    simp only [List.getLast?_nil, Option.bind_none]
    cases other : (below.filter fun e => !decide (e.path = p)).getLast? with
    | none => simp [named]
    | some n =>
        have member := List.mem_of_getLast? other
        have differs : n.path ≠ p := by simpa using (List.mem_filter.mp member).2
        simp [differs]
  · have isReached : e ∈ reached := by
      rw [some_eq]
      simp
    have isPath : e.path = p := (mem_versions.mp (List.mem_filter.mp isReached).1).2
    rw [some_eq, List.concat_eq_append, ← List.append_assoc]
    simp [isPath, Entry.readable]

/-- `get` reads the last version of the path. -/
theorem Sound.get_eq (sound : m.Sound) (short : p.length ≤ 3) (named : p ≠ [])
    (inTime : ∀ e ∈ m.versions p, e.time < maxInt64) :
    m.get p = (m.versions p).getLast?.bind Entry.readable := by
  rw [sound.get_eq_reached short named, List.filter_eq_self.mpr]
  intro e member
  apply decide_eq_true
  exact Prod.Lex.le_iff.mpr (.inl (inTime e member))

/-- The iteration stops at an entry of another path. -/
theorem chunkStep_other {σ : Type}
    {fn : σ → Int → String → List Value → Outcome (σ × Bool)} {state : σ}
    {e : Entry} (differs : e.path ≠ p) :
    chunkStep p fn state e = .ok (state, false) := by
  rw [chunkStep]
  split_ifs <;> rfl

/-- The entries of a path stand in order after smaller ones. -/
def SortedAt (m : Map) (p : List String) : Prop :=
  m.entries.Pairwise fun first second => second.path = p → first.key < second.key

/-- The versions of a short path are in order. -/
theorem Sound.sortedAt (sound : m.Sound) (short : p.length ≤ 3) : m.SortedAt p :=
  sound.ordered.imp fun ordered isPath => ordered (by rwa [isPath])

theorem SortedAt.versions (sorted : m.SortedAt p) :
    KeyedList.Sorted Entry.key (m.versions p) := by
  refine (List.Pairwise.sublist List.filter_sublist sorted).imp_of_mem ?_
  intro first second _ isSecond less
  exact less (of_decide_eq_true (List.mem_filter.mp isSecond).2)

/-- The iteration visits the versions of the path from time zero on. -/
theorem SortedAt.forEachListChunk_eq {σ : Type} (sorted : m.SortedAt p)
    (fn : σ → Int → String → List Value → Outcome (σ × Bool)) (state : σ) :
    m.forEachListChunk p fn state =
      visit (chunkStep p fn) ((m.versions p).filter fun e => 0 ≤ e.time) state := by
  set above := m.entries.filter fun e => pivot p 0 ≤ e.key with above_eq
  have first : above.Pairwise fun first second =>
      (decide (second.path = p) = true → decide (first.path = p) = true) := by
    refine (List.Pairwise.sublist List.filter_sublist sorted).imp_of_mem ?_
    intro first second isFirst _ ordered isPath
    have inAbove : pivot p 0 ≤ first.key := by
      simpa using (List.mem_filter.mp isFirst).2
    have isPath := of_decide_eq_true isPath
    have less := group_le_of_key_lt (ordered isPath)
    rw [group_eq_iff.mpr isPath] at less
    have firstGe : pathKey p ≤ first.group := by
      rcases pivot_le_iff.mp inAbove with greater | ⟨same, -⟩
      · exact greater.le
      · exact same.le
    exact decide_eq_true (group_eq_iff.mp (le_antisymm less firstGe))
  have versions_eq : above.filter (fun e => decide (e.path = p)) =
      (m.versions p).filter fun e => 0 ≤ e.time := by
    rw [above_eq, List.filter_filter, Map.versions, List.filter_filter]
    refine List.filter_congr fun e _ => ?_
    by_cases isPath : e.path = p
    · have late : pivot p 0 ≤ e.key ↔ 0 ≤ e.time := by
        rw [pivot_le_iff, group_eq_iff.mpr isPath]
        constructor
        · rintro (greater | ⟨-, atLeast⟩)
          · exact absurd greater (lt_irrefl _)
          · rcases Prod.Lex.le_iff.mp atLeast with later | ⟨same, -⟩
            · exact le_of_lt later
            · exact same.le
        · intro late
          refine .inr ⟨rfl, ?_⟩
          rcases late.lt_or_eq with later | same
          · exact Prod.Lex.le_iff.mpr (Or.inl later)
          · exact Prod.Lex.le_iff.mpr (Or.inr ⟨same, empty_le_string _⟩)
      simp [isPath, late]
    · simp [isPath]
  have split := KeyedList.eq_filter_append first
  rw [versions_eq] at split
  rw [forEachListChunk, KeyedList.ascend, ← above_eq, split]
  refine visit_append_stop (fun state e member => ?_) _ state
  have differs : e.path ≠ p := by simpa using (List.mem_filter.mp member).2
  exact chunkStep_other differs

end Read

/-! ## The newest patch -/

section Newest

variable {base m : Map} {time : Int} {origin : String} {ws : List Write}
    {p : List String} {versions : List Entry}

/-- Writes with the greatest stamp add one version, the last write. -/
theorem overwrite_newest
    (older : ∀ e ∈ versions, e.path = p ∧ e.stamp < toLex (time, origin)) :
    overwrite time origin p ws versions = versions ++
      ((ws.filter fun w => w.path = p).getLast?.map
        fun w => w.entry time origin).toList := by
  induction ws using List.reverseRecOn with
  | nil => simp [overwrite]
  | append_singleton ws w induction =>
      rw [overwrite_append, induction, List.filter_append]
      by_cases isPath : w.path = p
      · have greatest : ∀ e ∈ versions, e.key < (w.entry time origin).key := by
          intro e member
          obtain ⟨samePath, less⟩ := older e member
          refine KeyedList.groupKey_lt_iff.mpr (Or.inr ⟨?_, less⟩)
          exact congrArg pathKey (samePath.trans isPath.symm)
        rw [if_pos isPath]
        cases previous : (ws.filter fun w => w.path = p).getLast? with
        | none =>
            simp [isPath, KeyedList.set_of_greatest greatest]
        | some w' =>
            have isPath' : w'.path = p := by
              simpa using (List.mem_filter.mp (List.mem_of_getLast? previous)).2
            have same : (w'.entry time origin).key = (w.entry time origin).key := by
              change (toLex (pathKey w'.path, _) : _ ×ₗ _) =
                toLex (pathKey w.path, _)
              rw [isPath', isPath]
              rfl
            simp [isPath, KeyedList.set_of_last greatest same]
      · simp [isPath]

end Newest

end Map

end Mintter.Crdt2
