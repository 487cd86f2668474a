import Mintter.Crdt2.Journal

/-!
# Listing the chunks of a path

`List` and `ForEachListChunk` start at time zero and stop at the first entry of the path
that is no list chunk.  So they hand out all chunks of a path exactly when none of them
was written at a negative time or replaced, and all other values that stand there come
after the chunks.
-/

namespace Mintter.Crdt2

open Mintter.Foundation

/-- A list chunk as it is handed to a callback. -/
structure Chunk where
  time : Int
  origin : String
  items : List Value

/-- The time and the origin of a chunk. -/
def Chunk.stamp (chunk : Chunk) : Int ×ₗ String := toLex (chunk.time, chunk.origin)

/-- The items that a chunk inserts. -/
def insertedItems (value : Value) : Option (List Value) :=
  value.asMap.bind fun fields => (Object.get fields "#ins").bind Value.asList

/-- The entry as a list chunk that inserts items. -/
def Entry.chunk (e : Entry) : Option Chunk :=
  if e.valueType = .listChunk then
    (insertedItems e.value).map fun items => ⟨e.time, e.origin, items⟩
  else none

/-- Hand the chunks to a callback until it answers `false`. -/
def visitChunks {σ : Type} (fn : σ → Int → String → List Value → Outcome (σ × Bool))
    (chunks : List Chunk) (state : σ) : Outcome σ :=
  visit (fun state chunk => fn state chunk.time chunk.origin chunk.items) chunks state

/-- The chunks are those written at the path, and they are what reading it hands out. -/
structure ListsAll (m : Map) (calls : List MapCall) (p : List String)
    (chunks : List Chunk) : Prop where
  ordered : chunks.Pairwise fun earlier later => earlier.stamp < later.stamp
  complete : ∀ e, Written calls e → e.path = p → e.valueType = .listChunk →
    ∃ chunk ∈ chunks, e.chunk = some chunk
  written : ∀ chunk ∈ chunks, ∃ e, Written calls e ∧ e.path = p ∧ e.chunk = some chunk
  visits : ∀ {σ : Type} (fn : σ → Int → String → List Value → Outcome (σ × Bool)) state,
    m.forEachListChunk p fn state = visitChunks fn chunks state
  lists : m.list p = .ok (chunks.flatMap Chunk.items, !chunks.isEmpty)

/--
The chunks written at the path insert items, none at a negative time, and stand there;
what else stands there from time zero on has a greater stamp than the chunks.
-/
structure ChunksLead (calls : List MapCall) (p : List String) : Prop where
  stand : ∀ e, Written calls e → e.path = p → e.valueType = .listChunk →
    ∃ chunk, e.chunk = some chunk ∧ 0 ≤ chunk.time ∧
      ∃ e', Stands calls e' ∧ e'.path = p ∧ e'.chunk = some chunk
  lead : ∀ e e', Stands calls e → Stands calls e' → e.path = p → e'.path = p →
    e.valueType = .listChunk → e'.valueType ≠ .listChunk → 0 ≤ e'.time → e.stamp < e'.stamp

section Chunk

variable {e : Entry} {chunk : Chunk} {p : List String} {chunks : List Chunk}

/-- An entry is a chunk if it has the type of one and holds a list of inserted items. -/
theorem Entry.chunk_eq_some_iff : e.chunk = some chunk ↔ e.valueType = .listChunk ∧
    insertedItems e.value = some chunk.items ∧ e.stamp = chunk.stamp := by
  rw [Entry.chunk]
  split_ifs with isChunk
  · rw [Option.map_eq_some_iff]
    constructor
    · rintro ⟨items, found, rfl⟩
      exact ⟨isChunk, found, rfl⟩
    · rintro ⟨-, found, same⟩
      rcases Prod.mk.inj (toLex_inj.mp same) with ⟨time_eq, origin_eq⟩
      refine ⟨chunk.items, found, ?_⟩
      cases chunk
      exact congrArg₂ (Chunk.mk · · _) time_eq origin_eq
  · simp [isChunk]

theorem time_eq_of_chunk (isChunk : e.chunk = some chunk) : e.time = chunk.time :=
  (Prod.mk.inj (toLex_inj.mp (Entry.chunk_eq_some_iff.mp isChunk).2.2)).1

namespace Map

variable {σ : Type} {fn : σ → Int → String → List Value → Outcome (σ × Bool)} {state : σ}

/-- A chunk is handed to the callback. -/
theorem chunkStep_of_chunk (isPath : e.path = p) (isChunk : e.chunk = some chunk) :
    chunkStep p fn state e = fn state chunk.time chunk.origin chunk.items := by
  rcases Entry.chunk_eq_some_iff.mp isChunk with ⟨isList, found, same⟩
  rcases Prod.mk.inj (toLex_inj.mp same) with ⟨time_eq, origin_eq⟩
  rw [chunkStep, if_neg (not_not.mpr isList), if_neg (not_not.mpr isPath)]
  rcases Option.bind_eq_some_iff.mp found with ⟨fields, isMap, found⟩
  rcases Option.bind_eq_some_iff.mp found with ⟨items, inserted, isItems⟩
  have isSome : ¬ (fields.get "#ins" = none ∨ fields.get "#ins" = some .null) := by
    rintro (missing | null)
    · rw [missing] at inserted
      cases inserted
    · rw [null, Option.some.injEq] at inserted
      subst inserted
      cases isItems
  have toMap : assertType Value.asMap (some e.value) = .ok fields := by
    rw [assertType, Option.bind_some, isMap]
  have toItems : assertType Value.asList (fields.get "#ins") = .ok chunk.items := by
    rw [assertType, inserted, Option.bind_some, isItems]
  simp only [toMap, ok_bind, if_neg isSome, toItems, time_eq, origin_eq]

/-- Anything else ends the iteration, or it panics. -/
theorem chunkStep_of_malformed (isPath : e.path = p) (isList : e.valueType = .listChunk)
    (malformed : e.chunk = none) : ∃ abort, chunkStep p fn state e = .error abort := by
  rw [Entry.chunk, if_pos isList, Option.map_eq_none_iff, insertedItems] at malformed
  rw [chunkStep, if_neg (not_not.mpr isList), if_neg (not_not.mpr isPath)]
  cases isMap : e.value.asMap with
  | none =>
      rw [assertType, Option.bind_some, isMap]
      exact ⟨_, rfl⟩
  | some fields =>
      rw [isMap, Option.bind_some] at malformed
      have toMap : assertType Value.asMap (some e.value) = .ok fields := by
        rw [assertType, Option.bind_some, isMap]
      rw [toMap, ok_bind]
      split_ifs with missing
      · exact ⟨_, rfl⟩
      · rw [assertType, malformed]
        exact ⟨_, rfl⟩

/-- The iteration stops at an entry that is no chunk. -/
theorem chunkStep_of_other (isOther : e.valueType ≠ .listChunk) :
    chunkStep p fn state e = .ok (state, false) := by
  rw [chunkStep, if_pos isOther]
  exact rfl

/-! ## The chunks before the first other entry -/

/-- The entries are the chunks, and then none or another value. -/
def Leading (items : List Entry) (chunks : List Chunk) : Prop :=
  ∃ lead rest, items = lead ++ rest ∧ lead.map Entry.chunk = chunks.map some ∧
    ∀ e ∈ rest.head?, e.valueType ≠ .listChunk

/-- Any callback gets the leading chunks. -/
theorem Leading.visit_eq {items : List Entry} (leading : Leading items chunks)
    (own : ∀ e ∈ items, e.path = p) (state : σ) :
    visit (chunkStep p fn) items state = visitChunks fn chunks state := by
  rcases leading with ⟨lead, rest, rfl, same, other⟩
  induction lead generalizing chunks state with
  | nil =>
      rw [List.map_nil, eq_comm, List.map_eq_nil_iff] at same
      subst same
      cases rest with
      | nil => rfl
      | cons e rest => exact visit_cons_of_stop (chunkStep_of_other (other e rfl))
  | cons e lead induction =>
      cases chunks with
      | nil => cases same
      | cons chunk chunks =>
          rw [List.map_cons, List.map_cons, List.cons.injEq] at same
          rw [visitChunks, List.cons_append, visit, visit,
            chunkStep_of_chunk (own e (List.mem_cons_self ..)) same.1]
          apply bind_congr
          intro result
          rcases result with ⟨state', more⟩
          cases more with
          | false => rfl
          | true =>
              apply induction
              · exact fun e member => own e (List.mem_cons_of_mem _ member)
              · exact same.2

theorem visitChunks_cons_of_more {state' : σ}
    (step : fn state chunk.time chunk.origin chunk.items = .ok (state', true)) :
    visitChunks fn (chunk :: chunks) state = visitChunks fn chunks state' :=
  visit_cons_of_more step

/-- A callback that collects the chunks. -/
def collect (chunks : List Chunk) (time : Int) (origin : String) (items : List Value) :
    Outcome (List Chunk × Bool) :=
  pure (chunks ++ [⟨time, origin, items⟩], true)

/-- A callback that never stops collects all chunks. -/
theorem visitChunks_collect (chunks before : List Chunk) :
    visitChunks collect chunks before = .ok (before ++ chunks) := by
  induction chunks generalizing before with
  | nil => simp [visitChunks]
  | cons chunk chunks induction =>
      rw [visitChunks_cons_of_more rfl, induction]
      simp

/-- What is collected leads the entries. -/
theorem leading_of_collect {items : List Entry} (own : ∀ e ∈ items, e.path = p)
    {before collected : List Chunk}
    (visited : visit (chunkStep p collect) items before = .ok collected) :
    ∃ chunks, collected = before ++ chunks ∧ Leading items chunks := by
  induction items generalizing before with
  | nil =>
      cases visited
      exact ⟨[], by simp, [], [], rfl, rfl, nofun⟩
  | cons e items induction =>
      have ownRest := fun e' member => own e' (List.mem_cons_of_mem e member)
      have isPath := own e (List.mem_cons_self ..)
      by_cases isList : e.valueType = .listChunk
      · cases isChunk : e.chunk with
        | none =>
            have fails : ∃ abort, chunkStep p collect before e = .error abort :=
              chunkStep_of_malformed isPath isList isChunk
            rcases fails with ⟨abort, failed⟩
            rw [visit, failed] at visited
            cases visited
        | some chunk =>
            rw [visit_cons_of_more (chunkStep_of_chunk isPath isChunk)] at visited
            rcases induction ownRest visited with ⟨chunks, rfl, lead, rest, rfl, same, other⟩
            refine ⟨chunk :: chunks, by simp, e :: lead, rest, rfl, ?_, other⟩
            rw [List.map_cons, List.map_cons, isChunk, same]
      · rw [visit_cons_of_stop (chunkStep_of_other isList)] at visited
        cases visited
        refine ⟨[], by simp, [], e :: items, rfl, rfl, ?_⟩
        rintro _ ⟨⟩
        exact isList

/-- `list` returns the items of the chunks that are handed out. -/
theorem visitChunks_list (chunks : List Chunk) (out : List Value × Bool) :
    visitChunks (fun out _ _ items => pure ((out.1 ++ items, true), true)) chunks out =
      .ok (out.1 ++ chunks.flatMap Chunk.items, out.2 || !chunks.isEmpty) := by
  induction chunks generalizing out with
  | nil => simp [visitChunks]
  | cons chunk chunks induction =>
      rw [visitChunks_cons_of_more rfl, induction]
      simp

/-! ## Sorted entries -/

/-- On one path the keys are ordered by stamp. -/
theorem stamp_lt_iff {e e' : Entry} (samePath : e.path = e'.path) :
    e.key < e'.key ↔ e.stamp < e'.stamp := by
  have sameGroup : e.group = e'.group := congrArg pathKey samePath
  rw [KeyedList.groupKey_lt_iff]
  constructor
  · rintro (smaller | ⟨-, less⟩)
    · exact absurd smaller (sameGroup ▸ lt_irrefl _)
    · exact less
  · exact fun less => .inr ⟨sameGroup, less⟩

theorem chunk_eq_none_of_other (isOther : e.valueType ≠ .listChunk) : e.chunk = none := by
  rw [Entry.chunk, if_neg isOther]

/-- The chunks lead if the other entries come after them. -/
theorem leading_of_lead {items : List Entry} (sorted : KeyedList.Sorted Entry.key items)
    (own : ∀ e ∈ items, e.path = p)
    (wellFormed : ∀ e ∈ items, e.valueType = .listChunk → ∃ chunk, e.chunk = some chunk)
    (lead : ∀ e ∈ items, ∀ e' ∈ items, e.valueType = .listChunk →
      e'.valueType ≠ .listChunk → e.stamp < e'.stamp) :
    Leading items (items.filterMap Entry.chunk) := by
  induction items with
  | nil => exact ⟨[], [], rfl, rfl, nofun⟩
  | cons e items induction =>
      rcases List.pairwise_cons.mp sorted with ⟨smaller, sortedRest⟩
      have inItems : ∀ e' ∈ items, e' ∈ e :: items := fun e' => List.mem_cons_of_mem e
      have isFirst := List.mem_cons_self (a := e) (l := items)
      by_cases isList : e.valueType = .listChunk
      · rcases wellFormed e isFirst isList with ⟨chunk, isChunk⟩
        rcases induction sortedRest (fun e' member => own e' (inItems e' member))
          (fun e' member => wellFormed e' (inItems e' member))
          (fun e' member e'' member' => lead e' (inItems e' member) e'' (inItems e'' member'))
          with ⟨leading, rest, split, same, other⟩
        refine ⟨e :: leading, rest, by rw [split, List.cons_append], ?_, other⟩
        rw [List.filterMap_cons_some isChunk, List.map_cons, List.map_cons, isChunk, same]
      · -- No chunk comes behind another value.
        have none : items.filterMap Entry.chunk = [] := by
          rw [List.filterMap_eq_nil_iff]
          intro e' member
          apply chunk_eq_none_of_other
          intro isChunk
          have before := lead e' (inItems e' member) e isFirst isChunk isList
          have samePath : e.path = e'.path :=
            (own e isFirst).trans (own e' (inItems e' member)).symm
          exact before.asymm ((stamp_lt_iff samePath).mp (smaller e' member))
        refine ⟨[], e :: items, rfl, ?_, ?_⟩
        · rw [List.filterMap_cons_none (chunk_eq_none_of_other isList), none]
          exact rfl
        · rintro _ ⟨⟩
          exact isList

end Map

/-! ## All chunks are listed -/

section Lists

variable {m : Map} {calls : List MapCall}

/-- The chunks that are handed out are those of leading entries. -/
theorem Map.Leading.mem_iff {items : List Entry} (leading : Map.Leading items chunks) :
    ∃ lead rest, items = lead ++ rest ∧ (∀ e ∈ lead, e.valueType = .listChunk) ∧
      ∀ chunk, chunk ∈ chunks ↔ ∃ e ∈ lead, e.chunk = some chunk := by
  rcases leading with ⟨lead, rest, split, same, -⟩
  refine ⟨lead, rest, split, fun e member => ?_, fun chunk => ?_⟩
  · have isChunk : e.chunk ∈ chunks.map some := same ▸ List.mem_map_of_mem member
    rcases List.mem_map.mp isChunk with ⟨chunk, -, isSome⟩
    exact (Entry.chunk_eq_some_iff.mp isSome.symm).1
  · rw [← List.mem_map, same]
    simp

/-- When all chunks are listed, they lead what stands at the path. -/
theorem ListsAll.lead (sorted : m.SortedAt p)
    (stands_iff : ∀ e, e ∈ m.versions p ↔ Stands calls e ∧ e.path = p)
    (lists : ListsAll m calls p chunks) : ChunksLead calls p := by
  have visited := lists.visits Map.collect []
  rw [Map.visitChunks_collect, sorted.forEachListChunk_eq] at visited
  have own : ∀ e ∈ (m.versions p).filter fun e => 0 ≤ e.time, e.path = p := fun e member =>
    (Map.mem_versions.mp (List.mem_filter.mp member).1).2
  rcases Map.leading_of_collect own visited with ⟨_, rfl, leading⟩
  rcases leading.mem_iff with ⟨lead, rest, split, areLists, mem_iff⟩
  rw [List.nil_append] at mem_iff
  have inVersions : ∀ e ∈ lead, e ∈ m.versions p ∧ 0 ≤ e.time := by
    intro e member
    have inItems : e ∈ (m.versions p).filter fun e => 0 ≤ e.time :=
      split ▸ List.mem_append_left _ member
    simpa using inItems
  constructor
  · intro e written isPath isList
    rcases lists.complete e written isPath isList with ⟨chunk, listed, isChunk⟩
    rcases (mem_iff chunk).mp listed with ⟨e', member, isChunk'⟩
    rcases inVersions e' member with ⟨isVersion, late⟩
    rw [time_eq_of_chunk isChunk'] at late
    rcases (stands_iff e').mp isVersion with ⟨stands, isPath'⟩
    exact ⟨chunk, isChunk, late, e', stands, isPath', isChunk'⟩
  · intro e e' stands stands' isPath isPath' isList isOther late
    rcases lists.complete e stands.written isPath isList with ⟨chunk, listed, isChunk⟩
    rcases (mem_iff chunk).mp listed with ⟨found, member, isChunk'⟩
    -- The chunk is handed out as the entry `e` itself.
    have sameKey : found.key = e.key := by
      have stamps := (Entry.chunk_eq_some_iff.mp isChunk').2.2.trans
        (Entry.chunk_eq_some_iff.mp isChunk).2.2.symm
      have paths := (Map.mem_versions.mp (inVersions found member).1).2.trans isPath.symm
      exact congrArg toLex (Prod.ext (congrArg pathKey paths) stamps)
    have same : found = e := sorted.versions.key_injective (inVersions found member).1
      ((stands_iff e).mpr ⟨stands, isPath⟩) sameKey
    subst same
    have inItems : e' ∈ (m.versions p).filter fun e => 0 ≤ e.time :=
      List.mem_filter.mpr ⟨(stands_iff e').mpr ⟨stands', isPath'⟩, by simpa using late⟩
    have sortedItems : KeyedList.Sorted Entry.key
        ((m.versions p).filter fun e => 0 ≤ e.time) := sorted.versions.filter _
    rw [split] at inItems sortedItems
    rcases List.mem_append.mp inItems with inLead | inRest
    · exact absurd (areLists e' inLead) isOther
    · have less := (List.pairwise_append.mp sortedItems).2.2 found member e' inRest
      exact (Map.stamp_lt_iff (isPath.trans isPath'.symm)).mp less

/-- When the chunks lead what stands at the path, all are listed. -/
theorem ChunksLead.listsAll (sorted : m.SortedAt p)
    (stands_iff : ∀ e, e ∈ m.versions p ↔ Stands calls e ∧ e.path = p)
    (lead : ChunksLead calls p) :
    ListsAll m calls p
      (((m.versions p).filter fun e => 0 ≤ e.time).filterMap Entry.chunk) := by
  set items := (m.versions p).filter fun e => 0 ≤ e.time with items_eq
  have mem_items : ∀ e, e ∈ items ↔ (Stands calls e ∧ e.path = p) ∧ 0 ≤ e.time := by
    intro e
    rw [items_eq, List.mem_filter, stands_iff]
    simp
  have own : ∀ e ∈ items, e.path = p := fun e member => ((mem_items e).mp member).1.2
  have sortedItems : KeyedList.Sorted Entry.key items := sorted.versions.filter _
  have leading : Map.Leading items (items.filterMap Entry.chunk) := by
    apply Map.leading_of_lead sortedItems own
    · intro e member isList
      rcases (mem_items e).mp member with ⟨⟨stands, isPath⟩, -⟩
      rcases lead.stand e stands.written isPath isList with ⟨chunk, isChunk, -⟩
      exact ⟨chunk, isChunk⟩
    · intro e member e' member' isList isOther
      rcases (mem_items e).mp member with ⟨⟨stands, isPath⟩, -⟩
      rcases (mem_items e').mp member' with ⟨⟨stands', isPath'⟩, late⟩
      exact lead.lead e e' stands stands' isPath isPath' isList isOther late
  have visits : ∀ {σ : Type} (fn : σ → Int → String → List Value → Outcome (σ × Bool)) state,
      m.forEachListChunk p fn state = visitChunks fn (items.filterMap Entry.chunk) state := by
    intro σ fn state
    rw [sorted.forEachListChunk_eq]
    exact leading.visit_eq own state
  constructor
  · rw [List.pairwise_filterMap]
    refine sortedItems.imp_of_mem fun member member' less chunk isChunk chunk' isChunk' => ?_
    rw [← (Entry.chunk_eq_some_iff.mp isChunk).2.2, ← (Entry.chunk_eq_some_iff.mp isChunk').2.2]
    exact (Map.stamp_lt_iff ((own _ member).trans (own _ member').symm)).mp less
  · intro e written isPath isList
    rcases lead.stand e written isPath isList with
      ⟨chunk, isChunk, late, e', stands, isPath', isChunk'⟩
    rw [← time_eq_of_chunk isChunk'] at late
    have member := (mem_items e').mpr ⟨⟨stands, isPath'⟩, late⟩
    exact ⟨chunk, List.mem_filterMap.mpr ⟨e', member, isChunk'⟩, isChunk⟩
  · intro chunk member
    rcases List.mem_filterMap.mp member with ⟨e, inItems, isChunk⟩
    rcases (mem_items e).mp inItems with ⟨⟨stands, isPath⟩, -⟩
    exact ⟨e, stands.written, isPath, isChunk⟩
  · exact visits
  · rw [Map.list, visits, Map.visitChunks_list]
    simp

/--
Reading the list at a path hands out all chunks written there exactly when the chunks
lead what stands there.
-/
theorem listsAll_iff (decoded : ∀ call ∈ calls, call.Decoded)
    (apart : p.length ≤ 3 ∨ ∀ call ∈ calls, call.Separate)
    (performed : newMap.performCalls calls = .ok m) :
    (∃ chunks, ListsAll m calls p chunks) ↔ ChunksLead calls p := by
  rcases Map.mem_versions_iff_stands decoded apart performed with ⟨sorted, stands_iff⟩
  constructor
  · rintro ⟨chunks, lists⟩
    exact lists.lead sorted stands_iff
  · exact fun lead => ⟨_, lead.listsAll sorted stands_iff⟩

end Lists

end Chunk

/-! ## A sample -/

/-- A patch that adds a move to the list of moves. -/
def movePatch : Object :=
  [("moves", .map [("#list", .map [("#ins", .list [.string "move"])])])]

theorem reached_movePatch {front : Pending} (reached : Reached movePatch front) :
    front = (movePatch, []) := by
  rw [Reached, below_iff] at reached
  rcases reached with same | ⟨next, member, -⟩
  · exact same
  · simp [movePatch, Map.nestedFields, unwrap] at member

theorem movePatch_decoded : Decoded movePatch := by
  intro front reached
  rw [reached_movePatch reached]
  decide

/-- The chunk that the patch writes. -/
def moveEntry (time : Int) (origin : String) : Entry :=
  ⟨["moves"], time, origin, .listChunk, .map [("#ins", .list [.string "move"])]⟩

theorem writesEntry_movePatch (time : Int) (origin : String) :
    (MapCall.applyPatch .listed time origin movePatch).WritesEntry (moveEntry time origin) :=
  ⟨⟨["moves"], .listChunk, .map [("#ins", .list [.string "move"])]⟩,
    ⟨(movePatch, []), .refl, "moves", _, none, List.mem_singleton_self _, rfl, rfl⟩, rfl⟩

/-- Two moves. -/
def twoMoves : List MapCall :=
  [.applyPatch .listed 2 "bob" movePatch, .applyPatch .listed 1 "alice" movePatch]

/-- The two moves are listed in full if they lead their path. -/
theorem listsAll_iff_twoMoves : ∃ m, newMap.performCalls twoMoves = .ok m ∧
    ((∃ chunks, ListsAll m twoMoves ["moves"] chunks) ↔ ChunksLead twoMoves ["moves"]) := by
  have decoded : ∀ call ∈ twoMoves, call.Decoded := by
    intro call member
    rw [twoMoves, List.mem_cons, List.mem_singleton] at member
    rcases member with rfl | rfl
    · exact movePatch_decoded
    · exact movePatch_decoded
  exact ⟨_, rfl, listsAll_iff decoded (.inl (by decide)) rfl⟩

/-- A move and an older value that is no list. -/
def hiddenMove : List MapCall :=
  [.applyPatch .listed 2 "bob" movePatch, .set 1 "alice" ["moves"] (.string "none")]

/-- The older value ends the reading of the list before the move. -/
theorem move_is_hidden : ∃ m, newMap.performCalls hiddenMove = .ok m ∧
    m.list ["moves"] = .ok ([], false) ∧ ¬ ∃ chunks, ListsAll m hiddenMove ["moves"] chunks := by
  refine ⟨_, rfl, rfl, ?_⟩
  rintro ⟨chunks, lists⟩
  have written : Written hiddenMove (moveEntry 2 "bob") :=
    ⟨_, List.mem_cons_self .., writesEntry_movePatch 2 "bob"⟩
  rcases lists.complete _ written rfl rfl with ⟨chunk, listed, -⟩
  have none : (.ok ([], false) : Outcome (List Value × Bool)) =
      .ok (chunks.flatMap Chunk.items, !chunks.isEmpty) := lists.lists
  rw [Except.ok.injEq, Prod.mk.injEq] at none
  cases chunks with
  | nil => cases listed
  | cons chunk chunks => cases none.2

end Mintter.Crdt2
