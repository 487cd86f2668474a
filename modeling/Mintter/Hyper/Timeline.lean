import Mintter.Foundation.Pages
import Mintter.Foundation.Search
import Mintter.Hyper.Loading
import Mintter.Hyper.SmallSet

/-!
# The timeline of an entity

`GetEntityTimeline` reads the changes of an entity in the order of their times and builds
their graph: the dependencies and the children of each change, the roots and the heads of the
whole graph, and the heads of every author.

The query groups the changes by the child column of their dependencies.  That column is null
for every change without dependencies, so these changes make one group, of which the query
returns one row.  Which one is left to the database.
-/

namespace Mintter.Hyper

open Mintter.Foundation
open Relation

variable {Data : Type}

/-! ## The response -/

/-- A change of a timeline. -/
structure TimelineChange where
  id : String
  author : String
  createTime : Int
  isTrusted : Bool
  isDraft : Bool
  deps : List String
  children : List String
deriving DecidableEq

/-- The version that the changes of one author lead to. -/
structure AuthorVersion where
  author : String
  heads : List String
  version : String
  versionTime : Int
deriving DecidableEq

/-- The history of an entity. -/
structure EntityTimeline where
  id : String
  owner : String
  changes : String → Option TimelineChange
  changesByTime : List String
  roots : List String
  heads : List String
  authorVersions : List AuthorVersion

/-! ## The query -/

/-- A row of the query.  The numbers of the dependencies are listed as one text. -/
structure TimelineRow where
  idShort : String
  codec : Nat
  ts : Int
  isTrusted : Bool
  author : Principal
  deps : List String
  isDraft : Bool
deriving DecidableEq

/--
What is left open: the order of rows of one time, the row that stands for the changes without
dependencies, the order in which dependencies are joined, and the order in which sorting leaves
heads that compare equal, which is their order before a stable sort.
-/
structure TimelineOrder where
  rows : RowOrder
  pick : List StructuralBlobRow → Option StructuralBlobRow
  pick_mem : ∀ {rows row}, pick rows = some row → row ∈ rows
  pick_isSome : ∀ {rows}, rows ≠ [] → (pick rows).isSome
  concat : List String → List String
  concat_perm : ∀ deps, (concat deps).Perm deps
  shuffle : List String → List String
  shuffle_perm : ∀ heads, (shuffle heads).Perm heads

section Query

variable (F : Formats Data) (trusted : Principal → Bool) (order : TimelineOrder)
variable (s : Store Data) (iri : String) (includeDrafts : Bool)

/-- The changes of the entity, and its drafts if they are asked for. -/
def entityChanges : List StructuralBlobRow :=
  s.structuralBlobs.filter fun row =>
    row.type == "Change" && row.resource == some iri && (!isDraft s row || includeDrafts)

/-- The dependencies of a change. -/
def changeParents (row : StructuralBlobRow) : List String :=
  ((changeDeps s).filter (·.1 == row.blob)).map Prod.snd

/-- The rows that the inner joins keep. -/
def joinedChanges : List StructuralBlobRow :=
  (entityChanges s iri includeDrafts).filter fun row =>
    (s.blobRow row.blob).isSome && row.author.isSome

/-- One row for each change with dependencies, and one for all the others. -/
def groupedChanges : List StructuralBlobRow :=
  ((joinedChanges s iri includeDrafts).filter fun row => changeParents s row ≠ []) ++
    (order.pick ((joinedChanges s iri includeDrafts).filter fun row =>
      changeParents s row = [])).toList

/-- The row of a change in the history. -/
def timelineRow (row : StructuralBlobRow) : Option TimelineRow := do
  let blob ← s.blobRow row.blob
  let author ← row.author
  pure {
    idShort := row.blob
    codec := blob.codec
    ts := row.ts.getD 0
    isTrusted := trusted author
    author := author
    deps := order.concat (changeParents s row)
    isDraft := isDraft s row }

/-- The rows of the history of an entity. -/
def qGetEntityTimeline : List TimelineRow :=
  (order.rows.sort (groupedChanges order s iri includeDrafts)).filterMap
    (timelineRow trusted order s)

end Query

/-! ## Building the graph -/

/-- The response and the tables that are kept while it is built. -/
structure TimelineState where
  out : EntityTimeline
  changeLookup : String → Option String
  accountLookup : Principal → Option String
  accounts : SmallSet String
  heads : SmallSet String
  headsByAuthor : String → Option (SmallSet String)

/-- The children of a change, which has to be there. -/
def childrenOf (changes : String → Option TimelineChange) (node : String) :
    Outcome (List String) :=
  match changes node with
  | none => panicWith "nil pointer dereference"
  | some change => pure change.children

/-- Whether one change lies below another one. -/
def isDescendant (fuel : Nat) (changes : String → Option TimelineChange)
    (parent descendant : String) : Outcome Bool := do
  let children ← childrenOf changes parent
  searchLoop (childrenOf changes) descendant fuel [children]

/-- Changes by their times, then by their CIDs. -/
def sortChanges (order : TimelineOrder) (changes : String → Option TimelineChange)
    (heads : List String) : List String :=
  orderBy false (fun c => (changes c).elim (toLex (0, "")) fun change =>
    toLex (change.createTime, change.author)) (order.shuffle heads)

/-- The change is a child of its dependency, which is no head any more. -/
def TimelineState.linkChild (st : TimelineState) (idLong depLong : String)
    (parent : TimelineChange) : TimelineState :=
  let parent := { parent with children := parent.children ++ [idLong] }
  { st with
    out := { st.out with changes := Function.update st.out.changes depLong (some parent) }
    heads := st.heads.delete depLong }

@[simp]
theorem TimelineState.linkChild_changes (st : TimelineState) (idLong depLong : String)
    (parent : TimelineChange) :
    (st.linkChild idLong depLong parent).out.changes = Function.update st.out.changes depLong
      (some { parent with children := parent.children ++ [idLong] }) := rfl

@[simp]
theorem TimelineState.linkChild_heads (st : TimelineState) (idLong depLong : String)
    (parent : TimelineChange) :
    (st.linkChild idLong depLong parent).heads = st.heads.delete depLong := rfl

/-- Resolve one dependency, and link the change to it. -/
def addDep (idLong : String) (acc : TimelineState × List String) (depShort : String) :
    Attempt (TimelineState × List String) :=
  let (st, deps) := acc
  match st.changeLookup depShort with
  | none =>
      throw s!"missing causal dependency lookup \"{depShort}\" for change \"{idLong}\""
  | some depLong =>
      match st.out.changes depLong with
      | none => Attempt.abort "nil pointer dereference"
      | some parent => pure (st.linkChild idLong depLong parent, deps ++ [depLong])

section Build

variable (F : Formats Data)

/-- The CID of the blob of a row. -/
def rowCID (row : TimelineRow) : String := F.newCidV1 row.codec row.idShort

/-- The text of an author that is known already is not made again. -/
def rowAuthor (st : TimelineState) (row : TimelineRow) : String :=
  (st.accountLookup row.author).getD (F.principalString row.author)

/-- Note the change and its author in the tables. -/
def noteRow (st : TimelineState) (row : TimelineRow) : TimelineState :=
  let idLong := rowCID F row
  let author := rowAuthor F st row
  { out := { st.out with
      changesByTime := st.out.changesByTime ++ [idLong]
      roots := if row.deps = [] then st.out.roots ++ [idLong] else st.out.roots }
    changeLookup := Function.update st.changeLookup row.idShort (some idLong)
    accountLookup := Function.update st.accountLookup row.author (some author)
    accounts := st.accounts.put author
    heads := st.heads
    headsByAuthor := Function.update st.headsByAuthor author
      (some ((st.headsByAuthor author).getD .empty)) }

/-- The change of a row, on which no other one depends yet. -/
def timelineChange (row : TimelineRow) (author : String) (deps : List String) :
    TimelineChange where
  id := rowCID F row
  author := author
  createTime := row.ts
  isTrusted := row.isTrusted
  isDraft := row.isDraft
  deps := deps
  children := []

/-- The change is listed, and it is a head of the graph and of its author. -/
def TimelineState.listChange (st : TimelineState) (change : TimelineChange)
    (authorHeads : SmallSet String) : TimelineState :=
  { st with
    out := { st.out with
      changes := Function.update st.out.changes change.id (some change) }
    heads := st.heads.put change.id
    headsByAuthor := Function.update st.headsByAuthor change.author
      (some (authorHeads.put change.id)) }

/-- Process one row. -/
def addRow (fuel : Nat) (st : TimelineState) (row : TimelineRow) : Attempt TimelineState := do
  let author := rowAuthor F st row
  let (st, deps) ← row.deps.foldlM (addDep (rowCID F row)) (noteRow F st row, [])
  let change := timelineChange F row author deps
  let changes := Function.update st.out.changes change.id (some change)
  match st.headsByAuthor author with
  | none => Attempt.abort "nil pointer dereference"
  | some authorHeads =>
      let authorHeads ← ExceptT.lift
        (authorHeads.prune fun head => isDescendant fuel changes head change.id)
      pure (st.listChange change authorHeads)

/-- The version of one author: the heads of its changes, with the time of the latest one. -/
def authorVersion (order : TimelineOrder) (st : TimelineState) (author : String) :
    Attempt AuthorVersion :=
  match st.headsByAuthor author with
  | none => Attempt.abort "nil pointer dereference"
  | some set =>
      let heads := sortChanges order st.out.changes set.slice
      match heads.getLast? with
      | none => Attempt.abort "index out of range"
      | some last =>
          match st.out.changes last with
          | none => Attempt.abort "nil pointer dereference"
          | some change => pure {
              author := author
              heads := heads
              version := String.intercalate "." heads
              versionTime := change.createTime }

/-- A history without changes. -/
def emptyTimeline (id : String) : EntityTimeline where
  id := id
  owner := ""
  changes := fun _ => none
  changesByTime := []
  roots := []
  heads := []
  authorVersions := []

/-- Before any row is read. -/
def startTimeline (id : String) : TimelineState where
  out := emptyTimeline id
  changeLookup := fun _ => none
  accountLookup := fun _ => none
  accounts := .empty
  heads := .empty
  headsByAuthor := fun _ => none

/-- What is filled in when all rows are processed. -/
def finishTimeline (order : TimelineOrder) (owner : Option Principal) (st : TimelineState) :
    Attempt EntityTimeline :=
  match owner.bind st.accountLookup with
  | none =>
      throw s!"BUG: missing owner for entity \"{st.out.id}\" after processing the timeline"
  | some owner => do
      let authorVersions ← st.accounts.slice.mapM (authorVersion order st)
      pure { st.out with
        owner := owner
        heads := sortChanges order st.out.changes st.heads.slice
        authorVersions := authorVersions }

/-- The history of an entity, row by row. -/
def getEntityTimeline (trusted : Principal → Bool) (order : TimelineOrder) (s : Store Data)
    (fuel : Nat) (id : String) (includeDrafts : Bool) : Attempt EntityTimeline :=
  if id = "" then throw "id: argument is required"
  else match s.resourceRow id with
    | none => throw s!"no such entity {id}"
    | some resource => do
        let rows := qGetEntityTimeline trusted order s id includeDrafts
        let st ← rows.foldlM (addRow F fuel) (startTimeline id)
        if rows = [] then pure st.out else finishTimeline order resource.owner st

end Build

/-! ## What the tables hold -/

section Invariant

variable {F : Formats Data} {done rows : List TimelineRow} {row row' : TimelineRow}
variable {st st' : TimelineState} {fuel : Nat}

/-- A change has another one as a dependency. -/
def DepEdge (rows : List TimelineRow) (parent child : String) : Prop :=
  ∃ row ∈ rows, row.idShort = child ∧ parent ∈ row.deps

/-- The row is one of those, and this is its change. -/
def IsChange (F : Formats Data) (rows : List TimelineRow) (row : TimelineRow) (c : String) :
    Prop :=
  row ∈ rows ∧ rowCID F row = c

/-- No later change of its author descends from it. -/
def IsAuthorHead (F : Formats Data) (rows done : List TimelineRow) (row : TimelineRow) : Prop :=
  ∀ other ∈ done, F.principalString other.author = F.principalString row.author →
    ¬ TransGen (DepEdge rows) row.idShort other.idShort

/-- The tables and the response after the rows `done`. -/
structure Tabled (F : Formats Data) (rows done : List TimelineRow) (st : TimelineState) :
    Prop where
  lookup : ∀ {k c}, st.changeLookup k = some c ↔
    ∃ row, IsChange F done row c ∧ row.idShort = k
  account : ∀ {p a}, st.accountLookup p = some a ↔
    (∃ row ∈ done, row.author = p) ∧ F.principalString p = a
  accounts_nodup : st.accounts.slice.Nodup
  mem_accounts : ∀ {a}, a ∈ st.accounts.slice ↔
    ∃ row ∈ done, F.principalString row.author = a
  byTime : st.out.changesByTime = done.map (rowCID F)
  roots : st.out.roots = (done.filter fun row => row.deps = []).map (rowCID F)
  changes : ∀ {c}, (st.out.changes c).isSome ↔ ∃ row, IsChange F done row c
  children : ∀ {row c change}, IsChange F done row c → st.out.changes c = some change →
    ∀ {child}, child ∈ change.children ↔
      ∃ other, IsChange F done other child ∧ row.idShort ∈ other.deps
  heads_nodup : st.heads.slice.Nodup
  mem_heads : ∀ {c}, c ∈ st.heads.slice ↔
    ∃ row, IsChange F done row c ∧ ∀ other ∈ done, row.idShort ∉ other.deps
  headsByAuthor : ∀ {a set}, st.headsByAuthor a = some set →
    set.slice.Nodup ∧ ∀ {c}, c ∈ set.slice ↔
      ∃ row, IsChange F done row c ∧ F.principalString row.author = a ∧
        IsAuthorHead F rows done row
  isAuthor : ∀ {a}, (st.headsByAuthor a).isSome ↔
    ∃ row ∈ done, F.principalString row.author = a

theorem startTimeline_tabled (F : Formats Data) (rows : List TimelineRow) (id : String) :
    Tabled F rows [] (startTimeline id) := by
  constructor <;> simp [startTimeline, emptyTimeline, IsChange]

/-- The dependencies of a change that are done. -/
def DepsDone (done : List TimelineRow) (row : TimelineRow) : Prop :=
  ∀ dep ∈ row.deps, ∃ other ∈ done, other.idShort = dep

theorem rowCID_inj (same : rowCID F row = rowCID F row') : row.idShort = row'.idShort := by
  have hashes := congrArg F.cidHash same
  rwa [rowCID, rowCID, F.cidHash_newCidV1, F.cidHash_newCidV1] at hashes

/-! ## Linking a change to its dependencies -/

variable {idLong dep : String} {seen deps : List String}

/-- What linking a change to the dependencies `seen` does to the response and the heads. -/
structure Linked (F : Formats Data) (done : List TimelineRow) (idLong : String)
    (seen : List String) (st st' : TimelineState) : Prop where
  same : st' = { st with
    out := { st.out with changes := st'.out.changes }
    heads := st'.heads }
  changes : ∀ {c}, (st'.out.changes c).isSome ↔ (st.out.changes c).isSome
  children : ∀ {row c change}, IsChange F done row c → st'.out.changes c = some change →
    ∃ old, st.out.changes c = some old ∧ ∀ {child}, child ∈ change.children ↔
      child ∈ old.children ∨ child = idLong ∧ row.idShort ∈ seen
  heads_nodup : st'.heads.slice.Nodup
  mem_heads : ∀ {c}, c ∈ st'.heads.slice ↔ c ∈ st.heads.slice ∧
    ∀ row, IsChange F done row c → row.idShort ∉ seen

theorem Linked.start (nodup : st.heads.slice.Nodup) : Linked F done idLong [] st st where
  same := rfl
  changes := .rfl
  children := fun _ found => ⟨_, found, by simp⟩
  heads_nodup := nodup
  mem_heads := by simp

theorem Linked.changeLookup_eq (linked : Linked F done idLong seen st st') :
    st'.changeLookup = st.changeLookup := by
  rw [linked.same]

/-- Linking to one more change that is there. -/
theorem Linked.addDep (linked : Linked F done idLong seen st st')
    (ids : (done.map TimelineRow.idShort).Nodup) {other : TimelineRow}
    (isOther : other ∈ done) (isDep : other.idShort = dep)
    (found : st.changeLookup dep = some (rowCID F other))
    (present : (st.out.changes (rowCID F other)).isSome) :
    ∃ next, (Hyper.addDep idLong (st', deps) dep).Returns next ∧
      Linked F done idLong (seen ++ [dep]) st next.1 := by
  rcases Option.isSome_iff_exists.mp (linked.changes.mpr present) with ⟨parent, isParent⟩
  have isHere : ∀ {row c}, IsChange F done row c → (row.idShort = dep ↔ c = rowCID F other) := by
    rintro row c ⟨isRow, rfl⟩
    constructor
    · intro same
      rw [List.inj_on_of_nodup_map ids isRow isOther (same.trans isDep.symm)]
    · exact fun same => (rowCID_inj same).trans isDep
  have stepped : (Hyper.addDep idLong (st', deps) dep).Returns
      (st'.linkChild idLong (rowCID F other) parent, deps ++ [rowCID F other]) := by
    simp [Hyper.addDep, linked.changeLookup_eq, found, isParent]
  refine ⟨_, stepped, ?_, ?_, ?_, ?_, ?_⟩
  · rw [linked.same]
    rfl
  · intro c
    rw [← linked.changes]
    by_cases here : c = rowCID F other
    · simp [here, isParent]
    · simp [here]
  · intro row c change isChange isSome
    rw [TimelineState.linkChild_changes] at isSome
    rw [List.mem_append, List.mem_singleton, isHere isChange]
    by_cases here : c = rowCID F other
    · subst here
      rw [Function.update_self] at isSome
      cases isSome
      rcases linked.children isChange isParent with ⟨old, isOld, mem_children⟩
      refine ⟨old, isOld, fun {child} => ?_⟩
      rw [List.mem_append, List.mem_singleton, mem_children]
      tauto
    · rw [Function.update_of_ne here] at isSome
      rcases linked.children isChange isSome with ⟨old, isOld, mem_children⟩
      refine ⟨old, isOld, fun {child} => ?_⟩
      rw [mem_children]
      simp [here]
  · exact SmallSet.nodup_delete linked.heads_nodup _
  · intro c
    rw [TimelineState.linkChild_heads, SmallSet.mem_delete linked.heads_nodup,
      linked.mem_heads]
    constructor
    · rintro ⟨elsewhere, isHead, notSeen⟩
      refine ⟨isHead, fun row isChange => ?_⟩
      rw [List.mem_append, List.mem_singleton, isHere isChange]
      exact fun found => found.elim (notSeen row isChange) elsewhere
    · rintro ⟨isHead, none⟩
      refine ⟨?_, isHead, fun row isChange isSeen => none row isChange
        (List.mem_append_left _ isSeen)⟩
      rintro rfl
      exact none other ⟨isOther, rfl⟩ (by simp [isDep])

/-- Linking a change to dependencies that are there. -/
theorem Linked.addDeps (linked : Linked F done idLong seen st st')
    (ids : (done.map TimelineRow.idShort).Nodup) {more : List String}
    (known : ∀ dep ∈ more, ∃ other ∈ done, other.idShort = dep ∧
      st.changeLookup dep = some (rowCID F other) ∧ (st.out.changes (rowCID F other)).isSome)
    (deps : List String) :
    ∃ next, (more.foldlM (Hyper.addDep idLong) (st', deps)).Returns next ∧
      Linked F done idLong (seen ++ more) st next.1 := by
  induction more generalizing seen st' deps with
  | nil => exact ⟨_, Attempt.returns_pure.mpr rfl, by simpa using linked⟩
  | cons dep more induction =>
      rcases known dep List.mem_cons_self with ⟨other, isOther, isDep, found, present⟩
      rcases linked.addDep ids isOther isDep found present with ⟨⟨next, deps'⟩, first, linked'⟩
      rcases induction linked' (fun dep member => known dep (List.mem_cons_of_mem _ member))
        deps' with ⟨last, rest, linked''⟩
      refine ⟨last, ?_, by simpa using linked''⟩
      rw [List.foldlM_cons, Attempt.returns_bind]
      exact ⟨_, first, rest⟩

/-- Dependencies are linked only when they are known. -/
theorem lookup_of_addDeps {more : List String} {out : TimelineState × List String}
    (returns : (more.foldlM (addDep idLong) (st, deps)).Returns out) :
    ∀ dep ∈ more, (st.changeLookup dep).isSome := by
  induction more generalizing st deps with
  | nil => simp
  | cons dep more induction =>
      rw [List.foldlM_cons, Attempt.returns_bind] at returns
      rcases returns with ⟨⟨next, deps'⟩, first, rest⟩
      cases found : st.changeLookup dep with
      | none => simp [addDep, found] at first
      | some depLong =>
          cases isParent : st.out.changes depLong with
          | none => simp [addDep, found, isParent] at first
          | some parent =>
              have kept : next.changeLookup = st.changeLookup := by
                simp only [addDep, found, isParent, Attempt.returns_pure] at first
                cases first
                rfl
              intro other member
              rcases List.mem_cons.mp member with rfl | later
              · exact Option.isSome_of_eq_some found
              · exact kept ▸ induction rest other later

end Invariant

end Mintter.Hyper
