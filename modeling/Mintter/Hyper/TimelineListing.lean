import Mintter.Hyper.Loadable
import Mintter.Hyper.TimelineRows

/-!
# What the timeline lists

A timeline is to list all changes of an entity with their graph.  The query joins the changes
without dependencies into one row, so it does this exactly when there is at most one of them,
when what the listed changes depend on is listed as well, and when the owner wrote one of them.
-/

namespace Mintter.Hyper

open Mintter.Foundation
open Relation

variable {Data : Type} {F : Formats Data} {trusted : Principal → Bool} {order : TimelineOrder}
variable {s : Store Data} {iri : String} {includeDrafts : Bool}
variable {row other : StructuralBlobRow}

/-! ## What is to be listed -/

/-- The CID of a change. -/
def changeCID (F : Formats Data) (s : Store Data) (row : StructuralBlobRow) : String :=
  F.newCidV1 ((s.blobRow row.blob).elim 0 BlobRow.codec) row.blob

/-- The account that wrote a change. -/
def authorName (F : Formats Data) (row : StructuralBlobRow) : Option String :=
  row.author.map F.principalString

/-- The second change depends on the first one, directly or not. -/
def Descends (s : Store Data) (row other : StructuralBlobRow) : Prop :=
  TransGen (fun parent child => (child, parent) ∈ changeDeps s) row.blob other.blob

/-- The changes with a property are listed, each once. -/
def ListsOnce (F : Formats Data) (s : Store Data) (rows : List StructuralBlobRow)
    (property : StructuralBlobRow → Prop) (listed : List String) : Prop :=
  listed.Nodup ∧ ∀ c, c ∈ listed ↔ ∃ row ∈ rows, changeCID F s row = c ∧ property row

/-- The timeline has the whole graph of the changes. -/
structure ListsTimeline (F : Formats Data) (s : Store Data) (rows : List StructuralBlobRow)
    (out : EntityTimeline) : Prop where
  changes : ∀ c, (out.changes c).isSome ↔ ∃ row ∈ rows, changeCID F s row = c
  byTime : ListsOnce F s rows (fun _ => True) out.changesByTime
  roots : ListsOnce F s rows (fun row => changeParents s row = []) out.roots
  heads : ListsOnce F s rows (fun row => ∀ other ∈ rows, row.blob ∉ changeParents s other)
    out.heads
  authors_nodup : (out.authorVersions.map AuthorVersion.author).Nodup
  authors : ∀ a, a ∈ out.authorVersions.map AuthorVersion.author ↔
    ∃ row ∈ rows, authorName F row = some a
  authorHeads : ∀ version ∈ out.authorVersions, ListsOnce F s rows
    (fun row => authorName F row = some version.author ∧
      ∀ other ∈ rows, authorName F other = authorName F row → ¬ Descends s row other)
    version.heads

/-- The changes of an entity, drafts included, with earlier changes as their dependencies. -/
structure TimelineDAG (s : Store Data) (iri : String) : Prop where
  named : iri ≠ ""
  resource : (s.resourceRow iri).isSome
  nodup : (entityChanges s iri true).Pairwise fun row other => row.blob ≠ other.blob
  stored : ∀ row ∈ entityChanges s iri true, (s.blobRow row.blob).isSome
  deps : ∀ row ∈ entityChanges s iri true, ∀ dep ∈ changeParents s row,
    ∃ parent ∈ entityChanges s iri true, parent.blob = dep ∧
      ∃ ts ts', parent.ts = some ts ∧ row.ts = some ts' ∧ ts < ts'

/-- One change at most has no dependencies, and none of the dependencies is left out. -/
structure Listable (s : Store Data) (iri : String) (rows : List StructuralBlobRow) : Prop where
  authored : ∀ row ∈ rows, row.author.isSome
  oneRoot : ∀ row ∈ rows, ∀ other ∈ rows, changeParents s row = [] →
    changeParents s other = [] → row = other
  deps : ∀ row ∈ rows, ∀ dep ∈ changeParents s row, ∃ parent ∈ rows, parent.blob = dep
  owned : rows = [] ∨ ∃ row ∈ rows, row.author.isSome ∧ row.author = s.owner iri

/-! ## The rows of the query -/

section Rows

theorem mem_entityChanges : row ∈ entityChanges s iri includeDrafts ↔
    row ∈ entityChanges s iri true ∧ (isDraft s row = false ∨ includeDrafts = true) := by
  simp [entityChanges, and_assoc]

theorem mem_changeParents {dep : String} :
    dep ∈ changeParents s row ↔ (row.blob, dep) ∈ changeDeps s := by
  simp [changeParents]

theorem timelineRow_eq_some {result : TimelineRow}
    (isRow : timelineRow trusted order s row = some result) :
    result.idShort = row.blob ∧ (∀ dep, dep ∈ result.deps ↔ dep ∈ changeParents s row) ∧
      row.author = some result.author := by
  rw [timelineRow] at isRow
  rcases Option.bind_eq_some_iff.mp isRow with ⟨blob, isBlob, rest⟩
  rcases Option.bind_eq_some_iff.mp rest with ⟨author, isAuthor, last⟩
  cases last
  exact ⟨rfl, fun dep => (order.concat_perm _).mem_iff, isAuthor⟩

theorem rowCID_timelineRow (F : Formats Data) {result : TimelineRow}
    (isRow : timelineRow trusted order s row = some result) :
    rowCID F result = changeCID F s row := by
  rw [timelineRow] at isRow
  rcases Option.bind_eq_some_iff.mp isRow with ⟨blob, isBlob, rest⟩
  rcases Option.bind_eq_some_iff.mp rest with ⟨author, -, last⟩
  cases last
  rw [rowCID, changeCID, isBlob]
  rfl

theorem changeCID_inj (same : changeCID F s row = changeCID F s other) :
    row.blob = other.blob := by
  have hashes := congrArg F.cidHash same
  rwa [changeCID, changeCID, F.cidHash_newCidV1, F.cidHash_newCidV1] at hashes

theorem joined_of_grouped (isGrouped : row ∈ groupedChanges order s iri includeDrafts) :
    row ∈ joinedChanges s iri includeDrafts := by
  rcases List.mem_append.mp isGrouped with inner | root
  · exact (List.mem_filter.mp inner).1
  · exact (List.mem_filter.mp (order.pick_mem (Option.mem_toList.mp root))).1

theorem shown_of_grouped (isGrouped : row ∈ groupedChanges order s iri includeDrafts) :
    row ∈ entityChanges s iri includeDrafts :=
  (List.mem_filter.mp (joined_of_grouped isGrouped)).1

theorem exists_timelineRow (trusted : Principal → Bool)
    (isGrouped : row ∈ groupedChanges order s iri includeDrafts) :
    ∃ result, timelineRow trusted order s row = some result := by
  have isJoined := (List.mem_filter.mp (joined_of_grouped isGrouped)).2
  rw [Bool.and_eq_true] at isJoined
  rcases Option.isSome_iff_exists.mp isJoined.1 with ⟨blob, isBlob⟩
  rcases Option.isSome_iff_exists.mp isJoined.2 with ⟨author, isAuthor⟩
  exact ⟨_, by rw [timelineRow, isBlob, isAuthor]; rfl⟩

theorem mem_qGetEntityTimeline {result : TimelineRow} :
    result ∈ qGetEntityTimeline trusted order s iri includeDrafts ↔
      ∃ row ∈ groupedChanges order s iri includeDrafts,
        timelineRow trusted order s row = some result := by
  rw [qGetEntityTimeline, List.mem_filterMap]
  simp only [(order.rows.perm _).mem_iff]

/-- The numbers of the rows are those of the grouped changes. -/
theorem map_idShort_rows :
    (qGetEntityTimeline trusted order s iri includeDrafts).map TimelineRow.idShort =
      (order.rows.sort (groupedChanges order s iri includeDrafts)).map
        StructuralBlobRow.blob := by
  rw [qGetEntityTimeline, List.map_filterMap, ← List.filterMap_eq_map']
  refine List.filterMap_congr fun row isSorted => ?_
  rcases exists_timelineRow trusted ((order.rows.perm _).mem_iff.mp isSorted) with
    ⟨result, isRow⟩
  rw [isRow, Option.map_some, (timelineRow_eq_some isRow).1]

end Rows

namespace TimelineDAG

variable (dag : TimelineDAG s iri)

include dag

theorem row_eq (isRow : row ∈ entityChanges s iri true) (isOther : other ∈ entityChanges s iri true)
    (same : row.blob = other.blob) : row = other := by
  have symm : Std.Symm fun row other : StructuralBlobRow => row.blob ≠ other.blob :=
    ⟨fun _ _ => Ne.symm⟩
  by_contra differ
  exact dag.nodup.forall isRow isOther differ same

theorem grouped_nodup : (groupedChanges order s iri includeDrafts).Nodup := by
  have shown : (entityChanges s iri includeDrafts).Nodup := by
    have all : (entityChanges s iri true).Nodup :=
      List.Pairwise.imp (fun differ same => differ (congrArg _ same)) dag.nodup
    refine all.sublist (List.monotone_filter_right _ fun row => ?_)
    simp only [Bool.and_eq_true, Bool.or_true, and_true]
    exact fun isShown => isShown.1
  have joined := shown.filter fun row => (s.blobRow row.blob).isSome && row.author.isSome
  have picked : ∀ row : Option StructuralBlobRow, row.toList.Nodup := by
    rintro (_ | row) <;> simp
  refine List.nodup_append.mpr ⟨joined.filter _, picked _, ?_⟩
  rintro row inner other isPicked rfl
  have isRoot := (List.mem_filter.mp (order.pick_mem (Option.mem_toList.mp isPicked))).2
  have isInner := (List.mem_filter.mp inner).2
  simp only [decide_eq_true_eq] at isRoot isInner
  exact isInner isRoot

theorem grouped_eq (isRow : row ∈ groupedChanges order s iri includeDrafts)
    (isOther : other ∈ groupedChanges order s iri includeDrafts)
    (same : row.blob = other.blob) : row = other :=
  dag.row_eq (mem_entityChanges.mp (shown_of_grouped isRow)).1
    (mem_entityChanges.mp (shown_of_grouped isOther)).1 same

theorem ids_nodup (trusted : Principal → Bool) (order : TimelineOrder) (includeDrafts : Bool) :
    ((qGetEntityTimeline trusted order s iri includeDrafts).map TimelineRow.idShort).Nodup := by
  rw [map_idShort_rows, ((order.rows.perm _).map _).nodup_iff]
  exact List.Nodup.map_on (fun row isRow other isOther => dag.grouped_eq isRow isOther)
    dag.grouped_nodup

/-- A dependency of a row is an earlier change. -/
theorem earlier {result : TimelineRow} {dep : String}
    (isGrouped : row ∈ groupedChanges order s iri includeDrafts)
    (isRow : timelineRow trusted order s row = some result) (isDep : dep ∈ result.deps) :
    ∃ parent ∈ entityChanges s iri true, parent.blob = dep ∧ ¬ timeLe row parent := by
  have isParent := ((timelineRow_eq_some isRow).2.1 dep).mp isDep
  rcases dag.deps row (mem_entityChanges.mp (shown_of_grouped isGrouped)).1 dep isParent with
    ⟨parent, isShown, same, ts, ts', isTime, isTime', less⟩
  refine ⟨parent, isShown, same, ?_⟩
  rw [timeLe, isTime, isTime']
  exact not_le.mpr less

theorem not_self {result : TimelineRow}
    (isRow : result ∈ qGetEntityTimeline trusted order s iri includeDrafts) :
    result.idShort ∉ result.deps := by
  intro isDep
  rcases mem_qGetEntityTimeline.mp isRow with ⟨row, isGrouped, isResult⟩
  rcases dag.earlier isGrouped isResult isDep with ⟨parent, isParent, same, notLater⟩
  rw [(timelineRow_eq_some isResult).1] at same
  obtain rfl := dag.row_eq isParent (mem_entityChanges.mp (shown_of_grouped isGrouped)).1 same
  rw [timeLe] at notLater
  cases isTime : parent.ts <;> simp [isTime] at notLater

/-- The rows are in the order of the times of their changes. -/
theorem sorted (trusted : Principal → Bool) (order : TimelineOrder) (includeDrafts : Bool) :
    (qGetEntityTimeline trusted order s iri includeDrafts).Pairwise fun result result' =>
      ∀ row ∈ groupedChanges order s iri includeDrafts,
        ∀ other ∈ entityChanges s iri true, row.blob = result.idShort →
          other.blob = result'.idShort → timeLe row other := by
  rw [qGetEntityTimeline, List.pairwise_filterMap]
  refine (order.rows.sorted _).imp_of_mem ?_
  intro row other isRow isOther inOrder result isResult result' isResult' row' isRow' other'
    isOther' same same'
  have isGrouped := (order.rows.perm _).mem_iff.mp isRow
  have isGrouped' := (order.rows.perm _).mem_iff.mp isOther
  rw [(timelineRow_eq_some isResult).1] at same
  rw [(timelineRow_eq_some isResult').1] at same'
  obtain rfl := dag.grouped_eq isRow' isGrouped same
  obtain rfl := dag.row_eq isOther' (mem_entityChanges.mp (shown_of_grouped isGrouped')).1 same'
  exact inOrder

/-- When the dependencies of the rows are rows, they come first. -/
theorem depsFirst_iff :
    DepsFirst (qGetEntityTimeline trusted order s iri includeDrafts) ↔
      ∀ result ∈ qGetEntityTimeline trusted order s iri includeDrafts,
        DepsDone (qGetEntityTimeline trusted order s iri includeDrafts) result := by
  constructor
  · exact fun first result isRow => first.closed isRow
  · intro closed seen result rest split dep isDep
    have isRow : result ∈ qGetEntityTimeline trusted order s iri includeDrafts := by
      simp [split]
    rcases closed result isRow dep isDep with ⟨other, isOther, same⟩
    have ordered := dag.sorted trusted order includeDrafts
    rw [split] at isOther ordered
    rcases List.mem_append.mp isOther with before | later
    · exact ⟨other, before, same⟩
    · exfalso
      rcases List.mem_cons.mp later with rfl | after
      · exact dag.not_self isRow (same ▸ isDep)
      · rcases mem_qGetEntityTimeline.mp isRow with ⟨row, isGrouped, isResult⟩
        rcases dag.earlier isGrouped isResult isDep with ⟨parent, isParent, sameBlob, notLater⟩
        have behind := (List.pairwise_cons.mp (List.pairwise_append.mp ordered).2.1).1 other after
        exact notLater (behind row isGrouped parent isParent
          (timelineRow_eq_some isResult).1.symm (sameBlob.trans same.symm))

end TimelineDAG

/-! ## The response to a request -/

section Response

variable {out : EntityTimeline} {result : TimelineRow} {above c : String}

/-- What the rows depend on are changes that their changes depend on. -/
theorem below_iff
    (closed : ∀ result ∈ qGetEntityTimeline trusted order s iri includeDrafts,
      DepsDone (qGetEntityTimeline trusted order s iri includeDrafts) result)
    (isRow : result ∈ qGetEntityTimeline trusted order s iri includeDrafts) :
    TransGen (DepEdge (qGetEntityTimeline trusted order s iri includeDrafts)) above
        result.idShort ↔
      TransGen (fun parent child => (child, parent) ∈ changeDeps s) above result.idShort := by
  constructor
  · have edges : ∀ parent child,
        DepEdge (qGetEntityTimeline trusted order s iri includeDrafts) parent child →
          (child, parent) ∈ changeDeps s := by
      rintro parent child ⟨other, isOther, rfl, isDep⟩
      rcases mem_qGetEntityTimeline.mp isOther with ⟨row, -, isResult⟩
      have facts := timelineRow_eq_some isResult
      rw [facts.1]
      exact mem_changeParents.mp ((facts.2.1 parent).mp isDep)
    exact TransGen.mono edges _ _
  · have isDep_of_edge : ∀ {parent result},
        result ∈ qGetEntityTimeline trusted order s iri includeDrafts →
          (result.idShort, parent) ∈ changeDeps s → parent ∈ result.deps := by
      intro parent result isRow edge
      rcases mem_qGetEntityTimeline.mp isRow with ⟨row, -, isResult⟩
      have facts := timelineRow_eq_some isResult
      rw [facts.1] at edge
      exact (facts.2.1 parent).mpr (mem_changeParents.mpr edge)
    intro path
    generalize isBottom : result.idShort = bottom at path
    induction path generalizing result with
    | single edge =>
        exact .single ⟨result, isRow, isBottom, isDep_of_edge isRow (isBottom ▸ edge)⟩
    | tail _ edge induction =>
        have isDep := isDep_of_edge isRow (isBottom ▸ edge)
        rcases closed result isRow _ isDep with ⟨other, isOther, same⟩
        exact (induction isOther same).tail ⟨result, isRow, isBottom, isDep⟩

/-- The rows with a property are the grouped changes with it. -/
theorem exists_isChange_iff (F : Formats Data) {property : TimelineRow → Prop}
    {property' : StructuralBlobRow → Prop}
    (same : ∀ row ∈ groupedChanges order s iri includeDrafts, ∀ result,
      timelineRow trusted order s row = some result → (property result ↔ property' row)) :
    (∃ result, IsChange F (qGetEntityTimeline trusted order s iri includeDrafts) result c ∧
        property result) ↔
      ∃ row ∈ groupedChanges order s iri includeDrafts, changeCID F s row = c ∧
        property' row := by
  constructor
  · rintro ⟨result, ⟨isRow, rfl⟩, holds⟩
    rcases mem_qGetEntityTimeline.mp isRow with ⟨row, isGrouped, isResult⟩
    exact ⟨row, isGrouped, (rowCID_timelineRow F isResult).symm,
      (same row isGrouped result isResult).mp holds⟩
  · rintro ⟨row, isGrouped, rfl, holds⟩
    rcases exists_timelineRow trusted isGrouped with ⟨result, isResult⟩
    exact ⟨result, ⟨mem_qGetEntityTimeline.mpr ⟨row, isGrouped, isResult⟩,
      rowCID_timelineRow F isResult⟩, (same row isGrouped result isResult).mpr holds⟩

/-- All rows have a property when all grouped changes have it. -/
theorem forall_rows_iff {property : TimelineRow → Prop} {property' : StructuralBlobRow → Prop}
    (same : ∀ row ∈ groupedChanges order s iri includeDrafts, ∀ result,
      timelineRow trusted order s row = some result → (property result ↔ property' row)) :
    (∀ result ∈ qGetEntityTimeline trusted order s iri includeDrafts, property result) ↔
      ∀ row ∈ groupedChanges order s iri includeDrafts, property' row := by
  constructor
  · intro all row isGrouped
    rcases exists_timelineRow trusted isGrouped with ⟨result, isResult⟩
    exact (same row isGrouped result isResult).mp
      (all result (mem_qGetEntityTimeline.mpr ⟨row, isGrouped, isResult⟩))
  · intro all result isRow
    rcases mem_qGetEntityTimeline.mp isRow with ⟨row, isGrouped, isResult⟩
    exact (same row isGrouped result isResult).mpr (all row isGrouped)

theorem authorName_eq (F : Formats Data)
    (isResult : timelineRow trusted order s row = some result) :
    authorName F row = some (F.principalString result.author) := by
  rw [authorName, (timelineRow_eq_some isResult).2.2, Option.map_some]

theorem deps_eq_nil_iff (isResult : timelineRow trusted order s row = some result) :
    result.deps = [] ↔ changeParents s row = [] := by
  have same := (timelineRow_eq_some isResult).2.1
  rw [List.eq_nil_iff_forall_not_mem, List.eq_nil_iff_forall_not_mem]
  exact forall_congr' fun dep => not_congr (same dep)

/-- No change of the author descends from the one of the row. -/
theorem isAuthorHead_iff (F : Formats Data)
    (closed : ∀ result ∈ qGetEntityTimeline trusted order s iri includeDrafts,
      DepsDone (qGetEntityTimeline trusted order s iri includeDrafts) result)
    (isResult : timelineRow trusted order s row = some result) :
    IsAuthorHead F (qGetEntityTimeline trusted order s iri includeDrafts)
        (qGetEntityTimeline trusted order s iri includeDrafts) result ↔
      ∀ other ∈ groupedChanges order s iri includeDrafts,
        authorName F other = authorName F row → ¬ Descends s row other := by
  refine forall_rows_iff fun other isOther result' isResult' => ?_
  have isRow' := mem_qGetEntityTimeline.mpr ⟨other, isOther, isResult'⟩
  rw [below_iff closed isRow', authorName_eq F isResult, authorName_eq F isResult',
    Option.some_inj, (timelineRow_eq_some isResult).1, (timelineRow_eq_some isResult').1]
  exact .rfl

/-- No row depends on the one of a change when no grouped change depends on it. -/
theorem isLeaf_iff (isResult : timelineRow trusted order s row = some result) :
    (∀ other ∈ qGetEntityTimeline trusted order s iri includeDrafts,
        result.idShort ∉ other.deps) ↔
      ∀ other ∈ groupedChanges order s iri includeDrafts,
        row.blob ∉ changeParents s other := by
  refine forall_rows_iff fun other _ result' isResult' => not_congr ?_
  rw [(timelineRow_eq_some isResult).1]
  exact (timelineRow_eq_some isResult').2.1 row.blob

section Whole

variable (whole : ∀ row, row ∈ groupedChanges order s iri includeDrafts ↔
  row ∈ entityChanges s iri includeDrafts)

include whole

/-- What is listed of the rows is listed of the changes when all of them are rows. -/
theorem listsOnce_of_rows {listed : List String} {property : TimelineRow → Prop}
    {property' : StructuralBlobRow → Prop} (nodup : listed.Nodup)
    (mem_listed : ∀ c, c ∈ listed ↔ ∃ result,
      IsChange F (qGetEntityTimeline trusted order s iri includeDrafts) result c ∧
        property result)
    (same : ∀ row ∈ groupedChanges order s iri includeDrafts, ∀ result,
      timelineRow trusted order s row = some result → (property result ↔ property' row)) :
    ListsOnce F s (entityChanges s iri includeDrafts) property' listed := by
  refine ⟨nodup, fun c => ?_⟩
  rw [mem_listed, exists_isChange_iff F same]
  simp only [whole]

/-- A response about all rows lists the changes when all of them are rows. -/
theorem Responds.listsTimeline
    (responds : Responds F (qGetEntityTimeline trusted order s iri includeDrafts) out)
    (ids : ((qGetEntityTimeline trusted order s iri includeDrafts).map
      TimelineRow.idShort).Nodup)
    (first : DepsFirst (qGetEntityTimeline trusted order s iri includeDrafts)) :
    ListsTimeline F s (entityChanges s iri includeDrafts) out := by
  have stretch : Stretch (qGetEntityTimeline trusted order s iri includeDrafts)
      (qGetEntityTimeline trusted order s iri includeDrafts) := ⟨ids, List.prefix_rfl, first⟩
  have distinct := stretch.cids_nodup F
  have closed := fun result (isRow : result ∈
    qGetEntityTimeline trusted order s iri includeDrafts) => first.closed isRow
  have heads_eq : ∀ row : StructuralBlobRow, (∀ other ∈ groupedChanges order s iri includeDrafts,
      row.blob ∉ changeParents s other) ↔
        ∀ other ∈ entityChanges s iri includeDrafts, row.blob ∉ changeParents s other := by
    simp only [whole, implies_true]
  have mem_byTime : ∀ c, c ∈ out.changesByTime ↔ ∃ result,
      IsChange F (qGetEntityTimeline trusted order s iri includeDrafts) result c ∧ True := by
    intro c
    rw [responds.byTime, List.mem_map]
    simp only [IsChange, and_true]
  have byTime : ListsOnce F s (entityChanges s iri includeDrafts) (fun _ => True)
      out.changesByTime :=
    listsOnce_of_rows whole (responds.byTime ▸ distinct) mem_byTime fun _ _ _ _ => .rfl
  constructor
  · intro c
    have isListed := (mem_byTime c).symm.trans (byTime.2 c)
    simp only [and_true] at isListed
    exact responds.changes.trans isListed
  · exact byTime
  · have mem_roots : ∀ c, c ∈ out.roots ↔ ∃ result,
        IsChange F (qGetEntityTimeline trusted order s iri includeDrafts) result c ∧
          result.deps = [] := by
      intro c
      rw [responds.roots, List.mem_map]
      simp only [List.mem_filter, decide_eq_true_eq, IsChange]
      exact exists_congr fun result => and_right_comm
    have nodup : out.roots.Nodup := by
      rw [responds.roots]
      exact distinct.sublist (List.filter_sublist.map _)
    exact listsOnce_of_rows whole nodup mem_roots
      fun row _ result isResult => deps_eq_nil_iff isResult
  · exact listsOnce_of_rows whole responds.heads_nodup (fun c => responds.mem_heads)
      fun row _ result isResult => (isLeaf_iff isResult).trans (heads_eq row)
  · exact responds.authors_nodup
  · intro a
    rw [responds.mem_authors]
    constructor
    · rintro ⟨result, isRow, rfl⟩
      rcases mem_qGetEntityTimeline.mp isRow with ⟨row, isGrouped, isResult⟩
      exact ⟨row, (whole row).mp isGrouped, authorName_eq F isResult⟩
    · rintro ⟨row, isShown, isAuthor⟩
      have isGrouped := (whole row).mpr isShown
      rcases exists_timelineRow trusted isGrouped with ⟨result, isResult⟩
      rw [authorName_eq F isResult, Option.some_inj] at isAuthor
      exact ⟨result, mem_qGetEntityTimeline.mpr ⟨row, isGrouped, isResult⟩, isAuthor⟩
  · intro version isVersion
    rcases responds.authorHeads version isVersion with ⟨nodup, mem_heads⟩
    refine listsOnce_of_rows whole nodup mem_heads fun row _ result isResult => ?_
    rw [isAuthorHead_iff F closed isResult, authorName_eq F isResult, Option.some_inj]
    simp only [whole]

/-- The dependencies of the rows are rows when those of the changes are listed. -/
theorem depsDone_of_deps
    (deps : ∀ row ∈ entityChanges s iri includeDrafts, ∀ dep ∈ changeParents s row,
      ∃ parent ∈ entityChanges s iri includeDrafts, parent.blob = dep) :
    ∀ result ∈ qGetEntityTimeline trusted order s iri includeDrafts,
      DepsDone (qGetEntityTimeline trusted order s iri includeDrafts) result := by
  intro result isRow dep isDep
  rcases mem_qGetEntityTimeline.mp isRow with ⟨row, isGrouped, isResult⟩
  rcases deps row ((whole row).mp isGrouped) dep
    (((timelineRow_eq_some isResult).2.1 dep).mp isDep) with ⟨parent, isShown, rfl⟩
  rcases exists_timelineRow trusted ((whole parent).mpr isShown) with ⟨result', isResult'⟩
  exact ⟨result', mem_qGetEntityTimeline.mpr ⟨parent, (whole parent).mpr isShown, isResult'⟩,
    (timelineRow_eq_some isResult').1⟩

end Whole

/-- Changes that are all rows of an answered request can be listed. -/
theorem listable_of_grouped
    (first : DepsFirst (qGetEntityTimeline trusted order s iri includeDrafts))
    (owned : qGetEntityTimeline trusted order s iri includeDrafts = [] ∨
      ∃ result ∈ qGetEntityTimeline trusted order s iri includeDrafts,
        some result.author = s.owner iri)
    (grouped : ∀ row ∈ entityChanges s iri includeDrafts,
      row ∈ groupedChanges order s iri includeDrafts) :
    Listable s iri (entityChanges s iri includeDrafts) := by
  constructor
  · intro row isShown
    have isJoined := (List.mem_filter.mp (joined_of_grouped (grouped row isShown))).2
    exact ((Bool.and_eq_true _ _).mp isJoined).2
  · intro row isShown other isOther isRoot isRoot'
    have isPicked : ∀ row ∈ groupedChanges order s iri includeDrafts,
        changeParents s row = [] → order.pick ((joinedChanges s iri includeDrafts).filter
          fun row => changeParents s row = []) = some row := by
      intro row isGrouped isRoot
      rcases List.mem_append.mp isGrouped with inner | root
      · exact absurd isRoot (of_decide_eq_true (List.mem_filter.mp inner).2)
      · exact Option.mem_toList.mp root
    exact Option.some.inj ((isPicked row (grouped row isShown) isRoot).symm.trans
      (isPicked other (grouped other isOther) isRoot'))
  · intro row isShown dep isDep
    rcases exists_timelineRow trusted (grouped row isShown) with ⟨result, isResult⟩
    have isRow := mem_qGetEntityTimeline.mpr ⟨row, grouped row isShown, isResult⟩
    rcases first.closed isRow dep (((timelineRow_eq_some isResult).2.1 dep).mpr isDep) with
      ⟨result', isRow', rfl⟩
    rcases mem_qGetEntityTimeline.mp isRow' with ⟨parent, isGrouped, isResult'⟩
    exact ⟨parent, shown_of_grouped isGrouped, (timelineRow_eq_some isResult').1.symm⟩
  · rcases owned with none | ⟨result, isRow, isOwner⟩
    · refine .inl (List.eq_nil_iff_forall_not_mem.mpr fun row isShown => ?_)
      rcases exists_timelineRow trusted (grouped row isShown) with ⟨result, isResult⟩
      have isRow := mem_qGetEntityTimeline.mpr ⟨row, grouped row isShown, isResult⟩
      simp [none] at isRow
    · rcases mem_qGetEntityTimeline.mp isRow with ⟨row, isGrouped, isResult⟩
      have isAuthor := (timelineRow_eq_some isResult).2.2
      exact .inr ⟨row, shown_of_grouped isGrouped, Option.isSome_of_eq_some isAuthor,
        isAuthor.trans isOwner⟩

end Response

/-! ## The request -/

namespace TimelineDAG

variable (dag : TimelineDAG s iri) {out : EntityTimeline}

include dag

/-- A request processes the rows of the query. -/
theorem getEntityTimeline_eq (F : Formats Data) (trusted : Principal → Bool)
    (order : TimelineOrder) (fuel : Nat) (includeDrafts : Bool) :
    getEntityTimeline F trusted order s fuel iri includeDrafts =
      (qGetEntityTimeline trusted order s iri includeDrafts).foldlM (addRow F fuel)
        (startTimeline iri) >>= fun st =>
          if qGetEntityTimeline trusted order s iri includeDrafts = [] then pure st.out
          else finishTimeline order (s.owner iri) st := by
  rcases Option.isSome_iff_exists.mp dag.resource with ⟨resource, isResource⟩
  rw [getEntityTimeline, if_neg dag.named, Store.owner, isResource]
  rfl

/-- A request is answered when the rows can be processed and the owner is found. -/
theorem answers (F : Formats Data)
    (first : DepsFirst (qGetEntityTimeline trusted order s iri includeDrafts))
    (owned : qGetEntityTimeline trusted order s iri includeDrafts = [] ∨
      ∃ result ∈ qGetEntityTimeline trusted order s iri includeDrafts,
        some result.author = s.owner iri) :
    ∃ out, Attempt.Settles
        (fun fuel => getEntityTimeline F trusted order s fuel iri includeDrafts) out ∧
      Responds F (qGetEntityTimeline trusted order s iri includeDrafts) out := by
  have ids := dag.ids_nodup trusted order includeDrafts
  simp only [dag.getEntityTimeline_eq]
  rcases (startTimeline_tabled F _ iri).addRows ids (List.nil_append _).symm first with
    ⟨st, added, tabled⟩
  simp only [added.bind_iff]
  by_cases none : qGetEntityTimeline trusted order s iri includeDrafts = []
  · simp only [none, List.foldlM_nil] at added ⊢
    cases added.unique (.const (Attempt.returns_pure.mpr rfl))
    exact ⟨_, .const (Attempt.returns_pure.mpr rfl), emptyTimeline_responds F iri⟩
  · have stretch : Stretch (qGetEntityTimeline trusted order s iri includeDrafts)
        (qGetEntityTimeline trusted order s iri includeDrafts) := ⟨ids, List.prefix_rfl, first⟩
    rcases tabled.finishTimeline stretch order (owned.resolve_left none) with
      ⟨out, returns, responds⟩
    simp only [none, if_false]
    exact ⟨out, .const returns, responds⟩

/-- A request that is answered has processed the rows and found the owner. -/
theorem answered (settles : Attempt.Settles
      (fun fuel => getEntityTimeline F trusted order s fuel iri includeDrafts) out) :
    DepsFirst (qGetEntityTimeline trusted order s iri includeDrafts) ∧
      (qGetEntityTimeline trusted order s iri includeDrafts = [] ∨
        ∃ result ∈ qGetEntityTimeline trusted order s iri includeDrafts,
          some result.author = s.owner iri) := by
  have ids := dag.ids_nodup trusted order includeDrafts
  simp only [dag.getEntityTimeline_eq] at settles
  have start := startTimeline_tabled F (qGetEntityTimeline trusted order s iri includeDrafts) iri
  have first : DepsFirst (qGetEntityTimeline trusted order s iri includeDrafts) := by
    rcases settles with ⟨enough, returns⟩
    refine start.depsFirst_of_returns ids (fun result isRow => dag.not_self isRow)
      (List.nil_append _).symm (fun seen row rest split => ?_) ⟨enough, fun fuel large => ?_⟩
    · simp at split
    · rcases Attempt.returns_bind.mp (returns fuel large) with ⟨st, processed, -⟩
      exact ⟨st, processed⟩
  refine ⟨first, or_iff_not_imp_left.mpr fun some => ?_⟩
  rcases start.addRows ids (List.nil_append _).symm first with ⟨st, added, tabled⟩
  rcases added.bind_iff.mp settles with ⟨enough, returns⟩
  have finished := returns enough le_rfl
  rw [if_neg some] at finished
  exact tabled.owner_of_returns finished

/-- All changes are rows when they can be listed. -/
theorem grouped_iff (order : TimelineOrder)
    (listable : Listable s iri (entityChanges s iri includeDrafts)) (row : StructuralBlobRow) :
    row ∈ groupedChanges order s iri includeDrafts ↔
      row ∈ entityChanges s iri includeDrafts := by
  refine ⟨shown_of_grouped, fun isShown => ?_⟩
  have isJoined : row ∈ joinedChanges s iri includeDrafts := by
    refine List.mem_filter.mpr ⟨isShown, ?_⟩
    rw [dag.stored row (mem_entityChanges.mp isShown).1, listable.authored row isShown]
    rfl
  by_cases isRoot : changeParents s row = []
  · have isCandidate : row ∈ (joinedChanges s iri includeDrafts).filter fun row =>
        changeParents s row = [] := List.mem_filter.mpr ⟨isJoined, decide_eq_true isRoot⟩
    rcases Option.isSome_iff_exists.mp
      (order.pick_isSome (List.ne_nil_of_mem isCandidate)) with ⟨picked, isPicked⟩
    rcases List.mem_filter.mp (order.pick_mem isPicked) with ⟨wasJoined, wasRoot⟩
    have same := listable.oneRoot row isShown picked (List.mem_filter.mp wasJoined).1 isRoot
      (of_decide_eq_true wasRoot)
    exact List.mem_append_right _ (Option.mem_toList.mpr (same ▸ isPicked))
  · exact List.mem_append_left _ (List.mem_filter.mpr ⟨isJoined, decide_eq_true isRoot⟩)

/-- Changes that are all listed are all rows. -/
theorem grouped_of_lists
    (responds : Responds F (qGetEntityTimeline trusted order s iri includeDrafts) out)
    (lists : ListsTimeline F s (entityChanges s iri includeDrafts) out)
    (isShown : row ∈ entityChanges s iri includeDrafts) :
    row ∈ groupedChanges order s iri includeDrafts := by
  have isListed := (lists.byTime.2 (changeCID F s row)).mpr ⟨row, isShown, rfl, trivial⟩
  rw [responds.byTime] at isListed
  rcases List.mem_map.mp isListed with ⟨result, isRow, sameCID⟩
  rcases mem_qGetEntityTimeline.mp isRow with ⟨other, isGrouped, isResult⟩
  rw [rowCID_timelineRow F isResult] at sameCID
  obtain rfl := dag.row_eq (mem_entityChanges.mp (shown_of_grouped isGrouped)).1
    (mem_entityChanges.mp isShown).1 (changeCID_inj sameCID)
  exact isGrouped

/-- The changes can be listed when the timeline lists them. -/
theorem listable_of_lists (settles : Attempt.Settles
      (fun fuel => getEntityTimeline F trusted order s fuel iri includeDrafts) out)
    (lists : ListsTimeline F s (entityChanges s iri includeDrafts) out) :
    Listable s iri (entityChanges s iri includeDrafts) := by
  rcases dag.answered settles with ⟨first, owned⟩
  rcases dag.answers F first owned with ⟨out', settles', responds⟩
  cases settles.unique settles'
  exact listable_of_grouped first owned fun row isShown =>
    dag.grouped_of_lists responds lists isShown

/-- The timeline lists the changes when they can be listed. -/
theorem exists_lists (F : Formats Data) (trusted : Principal → Bool) (order : TimelineOrder)
    (listable : Listable s iri (entityChanges s iri includeDrafts)) :
    ∃ out, Attempt.Settles
        (fun fuel => getEntityTimeline F trusted order s fuel iri includeDrafts) out ∧
      ListsTimeline F s (entityChanges s iri includeDrafts) out := by
  have whole := dag.grouped_iff order listable
  have first : DepsFirst (qGetEntityTimeline trusted order s iri includeDrafts) :=
    dag.depsFirst_iff.mpr (depsDone_of_deps whole listable.deps)
  have owned : qGetEntityTimeline trusted order s iri includeDrafts = [] ∨
      ∃ result ∈ qGetEntityTimeline trusted order s iri includeDrafts,
        some result.author = s.owner iri := by
    rcases listable.owned with none | ⟨row, isShown, -, isOwner⟩
    · refine .inl (List.eq_nil_iff_forall_not_mem.mpr fun result isRow => ?_)
      rcases mem_qGetEntityTimeline.mp isRow with ⟨row, isGrouped, -⟩
      simp [none, whole] at isGrouped
    · have isGrouped := (whole row).mpr isShown
      rcases exists_timelineRow trusted isGrouped with ⟨result, isResult⟩
      exact .inr ⟨result, mem_qGetEntityTimeline.mpr ⟨row, isGrouped, isResult⟩,
        (timelineRow_eq_some isResult).2.2.symm.trans isOwner⟩
  rcases dag.answers F first owned with ⟨out, settles, responds⟩
  exact ⟨out, settles, responds.listsTimeline whole
    (dag.ids_nodup trusted order includeDrafts) first⟩

end TimelineDAG

/-! ## When the timeline lists the whole graph -/

/-- The timeline lists the whole graph exactly when the changes can be listed. -/
theorem getEntityTimeline_lists_iff (F : Formats Data) (trusted : Principal → Bool)
    (order : TimelineOrder) (includeDrafts : Bool) (dag : TimelineDAG s iri) :
    (∃ out, Attempt.Settles
        (fun fuel => getEntityTimeline F trusted order s fuel iri includeDrafts) out ∧
      ListsTimeline F s (entityChanges s iri includeDrafts) out) ↔
    Listable s iri (entityChanges s iri includeDrafts) := by
  constructor
  · rintro ⟨out, settles, lists⟩
    exact dag.listable_of_lists settles lists
  · exact dag.exists_lists F trusted order

/-- The account of two devices. -/
def sampleAccount : String := "hm://a/z6MkeXBLjYiSvqnhFb6D7sHm8yKm4jV45wwBFRaatf1cfZ76"

/-- A device names the account. -/
def sampleProfile (delegation : String) (signer : UInt8) (time : Int) (deps : List String)
    (name : String) : Change where
  deps := deps
  delegation := delegation
  action := ""
  hlcTime := time
  entity := sampleAccount
  patch := [("alias", .string name)]
  signer := samplePrincipal signer
  sig := "signature"

/-- The second device has seen these changes of the first one. -/
def profileArrivals (seen : List String) : List (Arrival DecodedBlob) :=
  [⟨.listed, "cdelegation1", .keyDelegation (sampleDelegation 1 11)⟩,
    ⟨.listed, "cdelegation2", .keyDelegation (sampleDelegation 1 12)⟩,
    ⟨.listed, "clap", .change (sampleProfile "cdelegation1" 11 1700000001000000 [] "Laptop")⟩,
    ⟨.listed, "cphone",
      .change (sampleProfile "cdelegation2" 12 1700000002000000 seen "Phone")⟩]

def syncedProfilesResult : Evaluated (sampleRun (profileArrivals ["clap"])) :=
  .of (by decide +kernel)

theorem syncedProfiles_accepted : (sampleRun (profileArrivals ["clap"])).isSome = true :=
  syncedProfilesResult.isSome

def forkedProfilesResult : Evaluated (sampleRun (profileArrivals [])) :=
  .of (by decide +kernel)

theorem forkedProfiles_accepted : (sampleRun (profileArrivals [])).isSome = true :=
  forkedProfilesResult.isSome

/-- One device has seen the change of the other one. -/
def syncedProfiles : Store DecodedBlob :=
  (sampleRun (profileArrivals ["clap"])).get syncedProfiles_accepted

/-- Both devices have named the account before they knew of each other. -/
def forkedProfiles : Store DecodedBlob :=
  (sampleRun (profileArrivals [])).get forkedProfiles_accepted

/-- Rows stay in their order. -/
def TimelineOrder.stable : TimelineOrder where
  rows := .stable
  pick := List.head?
  pick_mem := List.mem_of_head?
  pick_isSome := List.isSome_head?.mpr
  concat := id
  concat_perm := List.Perm.refl
  shuffle := id
  shuffle_perm := List.Perm.refl

theorem getEntityTimeline_lists_iff_syncedProfiles : ∃ out, Attempt.Settles
      (fun fuel => getEntityTimeline (sampleFormats sampleSha256) (fun _ => false) .stable
        syncedProfiles fuel sampleAccount false) out ∧
    ListsTimeline (sampleFormats sampleSha256) syncedProfiles
      (entityChanges syncedProfiles sampleAccount false) out := by
  have deps : ∀ row ∈ entityChanges syncedProfiles sampleAccount true,
      ∀ dep ∈ changeParents syncedProfiles row,
        ∃ parent ∈ entityChanges syncedProfiles sampleAccount true, parent.blob = dep ∧
          parent.ts = some 1700000001000000 ∧ row.ts = some 1700000002000000 := by
    decide +kernel
  have dag : TimelineDAG syncedProfiles sampleAccount := by
    refine ⟨by decide, by decide +kernel, by decide +kernel, by decide +kernel, ?_⟩
    intro row isRow dep isDep
    rcases deps row isRow dep isDep with ⟨parent, isParent, same, isTime, isTime'⟩
    exact ⟨parent, isParent, same, _, _, isTime, isTime', by decide⟩
  apply (getEntityTimeline_lists_iff _ _ _ false dag).mpr
  exact ⟨by decide +kernel, by decide +kernel, by decide +kernel, by decide +kernel⟩

/-- Of an account that two devices have named not all changes are listed. -/
theorem forked_profiles_not_listed : ∃ s iri,
    Reaches (accept (sampleFormats sampleSha256)) (fun _ _ => True) .empty s ∧
      TimelineDAG s iri ∧ ∀ order, ¬ ∃ out, Attempt.Settles (fun fuel =>
          getEntityTimeline (sampleFormats sampleSha256) (fun _ => false) order s fuel iri
            false) out ∧
        ListsTimeline (sampleFormats sampleSha256) s (entityChanges s iri false) out := by
  have dag : TimelineDAG forkedProfiles sampleAccount := by
    refine ⟨by decide, by decide +kernel, by decide +kernel, by decide +kernel, ?_⟩
    have roots : ∀ row ∈ entityChanges forkedProfiles sampleAccount true,
        changeParents forkedProfiles row = [] := by decide +kernel
    intro row isRow dep isDep
    simp [roots row isRow] at isDep
  refine ⟨_, sampleAccount, reaches_get _ forkedProfiles_accepted, dag, ?_⟩
  rintro order ⟨out, settles, lists⟩
  have listable := dag.listable_of_lists settles lists
  exact absurd listable.oneRoot (by decide +kernel)

end Mintter.Hyper
