import Mintter.Hyper.Timeline

/-!
# The rows of a timeline

When the dependencies of every row come before it, all rows are processed, and the tables
hold what they should: the search for descendants finds exactly them, although it runs on a
graph that is not complete, because what descends from a change comes after it.
-/

namespace Mintter.Hyper

open Mintter.Foundation
open Relation

variable {Data : Type} {F : Formats Data} {done rest rows seen : List TimelineRow}
variable {row row' : TimelineRow} {st st' : TimelineState}

/-! ## The order of the rows -/

/-- The dependencies of every row come before it. -/
def DepsFirst (rows : List TimelineRow) : Prop :=
  ∀ seen row rest, rows = seen ++ row :: rest → DepsDone seen row

theorem DepsFirst.of_append (first : DepsFirst (done ++ rest)) : DepsFirst done := by
  rintro seen row later rfl
  exact first seen row (later ++ rest) (by simp)

theorem DepsFirst.closed (first : DepsFirst done) (isRow : row ∈ done) : DepsDone done row := by
  rcases List.append_of_mem isRow with ⟨seen, later, rfl⟩
  intro dep isDep
  rcases first seen row later rfl dep isDep with ⟨other, before, same⟩
  exact ⟨other, List.mem_append_left _ before, same⟩

/-- A row and all rows before it, which are in a list where numbers are unique. -/
structure Stretch (rows done : List TimelineRow) : Prop where
  ids : (rows.map TimelineRow.idShort).Nodup
  isPrefix : done <+: rows
  first : DepsFirst done

theorem Stretch.eq (stretch : Stretch rows done) (isRow : row ∈ rows) (isRow' : row' ∈ rows)
    (same : row.idShort = row'.idShort) : row = row' :=
  List.inj_on_of_nodup_map stretch.ids isRow isRow' same

theorem Stretch.subset (stretch : Stretch rows done) : done ⊆ rows := stretch.isPrefix.subset

theorem Stretch.ids_nodup (stretch : Stretch rows done) :
    (done.map TimelineRow.idShort).Nodup :=
  stretch.ids.sublist (stretch.isPrefix.sublist.map _)

theorem Stretch.cids_nodup (stretch : Stretch rows done) (F : Formats Data) :
    (done.map (rowCID F)).Nodup := by
  have distinct := stretch.ids_nodup
  rw [List.Nodup, List.pairwise_map] at distinct ⊢
  exact distinct.imp fun differ same => differ (rowCID_inj same)

/-- What a done row depends on is done. -/
theorem Stretch.done_of_edge (stretch : Stretch rows done) (isRow : row ∈ done) {parent : String}
    (edge : DepEdge rows parent row.idShort) :
    parent ∈ row.deps ∧ ∃ other ∈ done, other.idShort = parent := by
  rcases edge with ⟨child, isChild, same, isDep⟩
  obtain rfl := stretch.eq isChild (stretch.subset isRow) same
  exact ⟨isDep, stretch.first.closed isRow parent isDep⟩

/-- What is above a done row is done. -/
theorem Stretch.done_of_below (stretch : Stretch rows done) (isRow : row ∈ done) {above : String}
    (path : TransGen (DepEdge rows) above row.idShort) :
    ∃ other ∈ done, other.idShort = above := by
  generalize isBottom : row.idShort = bottom at path
  induction path generalizing row with
  | single edge => exact (stretch.done_of_edge isRow (isBottom ▸ edge)).2
  | tail _ edge induction =>
      rcases (stretch.done_of_edge isRow (isBottom ▸ edge)).2 with ⟨other, isOther, same⟩
      exact induction isOther same

/-- Nothing that is done is below the next row. -/
theorem Stretch.not_below (stretch : Stretch rows done) (fresh : row.idShort ∉
    done.map TimelineRow.idShort) (isRow : row' ∈ done) :
    ¬ TransGen (DepEdge rows) row.idShort row'.idShort := by
  intro path
  rcases stretch.done_of_below isRow path with ⟨other, isOther, same⟩
  exact fresh (same ▸ List.mem_map_of_mem isOther)

/-! ## Searching for descendants -/

/-- The changes and their children are those of the rows. -/
structure Graphed (F : Formats Data) (done : List TimelineRow)
    (changes : String → Option TimelineChange) : Prop where
  present : ∀ {c}, (changes c).isSome ↔ ∃ row, IsChange F done row c
  children : ∀ {row c change}, IsChange F done row c → changes c = some change →
    ∀ {child}, child ∈ change.children ↔
      ∃ other, IsChange F done other child ∧ row.idShort ∈ other.deps

variable {changes : String → Option TimelineChange}

/-- The children that a search sees. -/
def kidsOf (changes : String → Option TimelineChange) (c : String) : List String :=
  (changes c).elim [] TimelineChange.children

theorem childrenOf_eq {c : String} (present : (changes c).isSome) :
    childrenOf changes c = .ok (kidsOf changes c) := by
  rcases Option.isSome_iff_exists.mp present with ⟨change, isChange⟩
  simp [childrenOf, kidsOf, isChange]

theorem Graphed.mem_kidsOf (graphed : Graphed F done changes) (isRow : row ∈ done)
    {child : String} : child ∈ kidsOf changes (rowCID F row) ↔
      ∃ other, IsChange F done other child ∧ row.idShort ∈ other.deps := by
  rcases Option.isSome_iff_exists.mp (graphed.present.mpr ⟨row, isRow, rfl⟩) with
    ⟨change, isChange⟩
  rw [kidsOf, isChange]
  exact graphed.children ⟨isRow, rfl⟩ isChange

/-- A path along the children is a path along the dependencies. -/
theorem Graphed.below_of_kids (graphed : Graphed F done changes) (stretch : Stretch rows done)
    (isRow : row ∈ done) {c : String}
    (path : TransGen (fun a b => b ∈ kidsOf changes a) (rowCID F row) c) :
    ∃ other, IsChange F done other c ∧ TransGen (DepEdge rows) row.idShort other.idShort := by
  induction path with
  | single isKid =>
      rcases (graphed.mem_kidsOf isRow).mp isKid with ⟨other, isOther, isDep⟩
      exact ⟨other, isOther, .single ⟨other, stretch.subset isOther.1, rfl, isDep⟩⟩
  | tail _ isKid induction =>
      rcases induction with ⟨middle, ⟨isMiddle, rfl⟩, above⟩
      rcases (graphed.mem_kidsOf isMiddle).mp isKid with ⟨other, isOther, isDep⟩
      exact ⟨other, isOther, above.tail ⟨other, stretch.subset isOther.1, rfl, isDep⟩⟩

/-- A path along the dependencies is a path along the children. -/
theorem Graphed.kids_of_below (graphed : Graphed F done changes) (stretch : Stretch rows done)
    (isRow : row ∈ done) (isRow' : row' ∈ done)
    (path : TransGen (DepEdge rows) row.idShort row'.idShort) :
    TransGen (fun a b => b ∈ kidsOf changes a) (rowCID F row) (rowCID F row') := by
  generalize isBottom : row'.idShort = bottom at path
  induction path generalizing row' with
  | single edge =>
      have isDep := (stretch.done_of_edge isRow' (isBottom ▸ edge)).1
      exact .single ((graphed.mem_kidsOf isRow).mpr ⟨row', ⟨isRow', rfl⟩, isDep⟩)
  | tail _ edge induction =>
      rcases stretch.done_of_edge isRow' (isBottom ▸ edge) with ⟨isDep, other, isOther, rfl⟩
      exact (induction isOther rfl).tail
        ((graphed.mem_kidsOf isOther).mpr ⟨row', ⟨isRow', rfl⟩, isDep⟩)

/-- Children come later. -/
theorem Graphed.kid_later (graphed : Graphed F done changes) (stretch : Stretch rows done)
    (isRow : row ∈ done) {child : String} (isKid : child ∈ kidsOf changes (rowCID F row)) :
    (done.map (rowCID F)).idxOf (rowCID F row) < (done.map (rowCID F)).idxOf child := by
  rcases (graphed.mem_kidsOf isRow).mp isKid with ⟨other, ⟨isOther, rfl⟩, isDep⟩
  have distinct := stretch.cids_nodup F
  rcases List.append_of_mem isOther with ⟨before, after, rfl⟩
  rcases stretch.first before other after rfl row.idShort isDep with ⟨same, isBefore, sameID⟩
  obtain rfl := stretch.eq (stretch.subset (List.mem_append_left _ isBefore))
    (stretch.subset isRow) sameID
  rw [List.map_append, List.map_cons] at distinct ⊢
  have isFirst : rowCID F same ∈ before.map (rowCID F) := List.mem_map_of_mem isBefore
  have absent : rowCID F other ∉ before.map (rowCID F) := fun again =>
    (List.nodup_append.mp distinct).2.2 _ again _ List.mem_cons_self rfl
  rw [List.idxOf_append_of_mem isFirst, List.idxOf_append_of_notMem absent,
    List.idxOf_cons_self, Nat.add_zero]
  exact List.idxOf_lt_length_of_mem isFirst

open Classical in
/-- The search for a descendant finds it exactly when it is one. -/
theorem Graphed.isDescendant_converges (graphed : Graphed F done changes)
    (stretch : Stretch rows done) (isRow : row ∈ done) (isRow' : row' ∈ done) :
    Converges (fun fuel => isDescendant fuel changes (rowCID F row) (rowCID F row'))
      (.ok (decide (TransGen (DepEdge rows) row.idShort row'.idShort))) := by
  have closed : ∀ c, (changes c).isSome → ∀ kid ∈ kidsOf changes c, (changes kid).isSome := by
    intro c present kid isKid
    rcases graphed.present.mp present with ⟨node, isNode, rfl⟩
    rcases (graphed.mem_kidsOf isNode).mp isKid with ⟨other, isOther, -⟩
    exact graphed.present.mpr ⟨other, isOther⟩
  have lower : ∀ c, (changes c).isSome → ∀ kid ∈ kidsOf changes c,
      done.length - (done.map (rowCID F)).idxOf kid <
        done.length - (done.map (rowCID F)).idxOf c := by
    intro c present kid isKid
    rcases graphed.present.mp present with ⟨node, isNode, rfl⟩
    have later := graphed.kid_later stretch isNode isKid
    have short := List.idxOf_lt_length_of_mem
      (show rowCID F node ∈ done.map (rowCID F) from List.mem_map_of_mem isNode)
    rw [List.length_map] at short
    omega
  have isHere := graphed.present.mpr ⟨row, isRow, rfl⟩
  have searched := searchLoop_converges
    (fun c present => childrenOf_eq present) closed _ lower (rowCID F row') (closed _ isHere)
  have leads_iff : Leads (kidsOf changes) (rowCID F row') (kidsOf changes (rowCID F row)) ↔
      TransGen (DepEdge rows) row.idShort row'.idShort := by
    have paths : Leads (kidsOf changes) (rowCID F row') (kidsOf changes (rowCID F row)) ↔
        TransGen (fun a b => b ∈ kidsOf changes a) (rowCID F row) (rowCID F row') := by
      rw [TransGen.head'_iff]
      exact .rfl
    rw [paths]
    constructor
    · intro path
      rcases graphed.below_of_kids stretch isRow path with ⟨other, ⟨-, same⟩, below⟩
      exact rowCID_inj same ▸ below
    · exact graphed.kids_of_below stretch isRow isRow'
  simp only [leads_iff] at searched
  refine searched.congr fun fuel => ?_
  rw [isDescendant, childrenOf_eq isHere, ok_bind]

/-! ## Adding a row -/

/-- The row is one of those before, or the new one. -/
theorem exists_concat_iff {property : TimelineRow → Prop} :
    (∃ other ∈ done ++ [row], property other) ↔ (∃ other ∈ done, property other) ∨
      property row := by
  simp [or_and_right, exists_or]

theorem exists_isChange_concat_iff {property : TimelineRow → Prop} {c : String} :
    (∃ other, IsChange F (done ++ [row]) other c ∧ property other) ↔
      (∃ other, IsChange F done other c ∧ property other) ∨ rowCID F row = c ∧ property row := by
  simp [IsChange, or_and_right, exists_or, and_assoc]

theorem isAuthorHead_concat_iff {other : TimelineRow} :
    IsAuthorHead F rows (done ++ [row]) other ↔ IsAuthorHead F rows done other ∧
      (F.principalString row.author = F.principalString other.author →
        ¬ TransGen (DepEdge rows) other.idShort row.idShort) := by
  simp [IsAuthorHead, or_imp, forall_and]

section Step

variable (tabled : Tabled F rows done st) (stretch : Stretch rows (done ++ [row]))

include stretch

theorem Stretch.of_concat : Stretch rows done where
  ids := stretch.ids
  isPrefix := (List.prefix_append _ _).trans stretch.isPrefix
  first := stretch.first.of_append

theorem Stretch.fresh : row.idShort ∉ done.map TimelineRow.idShort := by
  have distinct := stretch.ids_nodup
  rw [List.map_append, List.map_singleton] at distinct
  exact fun again => (List.nodup_append.mp distinct).2.2 _ again _ List.mem_cons_self rfl

theorem Stretch.depsDone : DepsDone done row := stretch.first done row [] rfl

theorem Stretch.cid_ne (isRow : row' ∈ done) : rowCID F row' ≠ rowCID F row := fun same =>
  stretch.fresh (rowCID_inj same ▸ List.mem_map_of_mem isRow)

/-- No row so far depends on the new one. -/
theorem Stretch.not_dep {other : TimelineRow} (isOther : other ∈ done ++ [row]) :
    row.idShort ∉ other.deps := by
  intro isDep
  have depsDone : DepsDone done other := by
    rcases List.mem_append.mp isOther with old | new
    · exact stretch.of_concat.first.closed old
    · exact List.mem_singleton.mp new ▸ stretch.depsDone
  rcases depsDone _ isDep with ⟨parent, isParent, same⟩
  exact stretch.fresh (same ▸ List.mem_map_of_mem isParent)

/-- No row so far descends from the new one. -/
theorem Stretch.isAuthorHead_new : IsAuthorHead F rows (done ++ [row]) row := by
  intro other isOther _ path
  rcases TransGen.tail'_iff.mp path with ⟨middle, above, edge⟩
  rcases stretch.done_of_edge isOther edge with ⟨isDep, parent, isParent, rfl⟩
  rcases Relation.reflTransGen_iff_eq_or_transGen.mp above with same | below
  · exact stretch.not_dep isOther (same ▸ isDep)
  · rcases List.mem_append.mp isParent with old | new
    · exact stretch.of_concat.not_below stretch.fresh old below
    · exact stretch.not_dep isOther (List.mem_singleton.mp new ▸ isDep)

omit stretch

include tabled

theorem Tabled.rowAuthor_eq (row : TimelineRow) :
    rowAuthor F st row = F.principalString row.author := by
  rw [rowAuthor]
  cases found : st.accountLookup row.author with
  | none => rfl
  | some a => exact (tabled.account.mp found).2.symm

include stretch

/-- The dependencies of the new row can be linked. -/
theorem Tabled.addDeps : ∃ next,
    (row.deps.foldlM (addDep (rowCID F row)) (noteRow F st row, [])).Returns next ∧
      Linked F done (rowCID F row) row.deps (noteRow F st row) next.1 := by
  have linked : Linked F done (rowCID F row) [] (noteRow F st row) (noteRow F st row) :=
    .start tabled.heads_nodup
  have known : ∀ dep ∈ row.deps, ∃ other ∈ done, other.idShort = dep ∧
      (noteRow F st row).changeLookup dep = some (rowCID F other) ∧
        ((noteRow F st row).out.changes (rowCID F other)).isSome := by
    intro dep isDep
    rcases stretch.depsDone dep isDep with ⟨other, isOther, rfl⟩
    refine ⟨other, isOther, rfl, ?_, tabled.changes.mpr ⟨other, isOther, rfl⟩⟩
    have differs : other.idShort ≠ row.idShort := fun same =>
      stretch.fresh (same ▸ List.mem_map_of_mem isOther)
    exact (Function.update_of_ne differs _ _).trans
      (tabled.lookup.mpr ⟨other, ⟨isOther, rfl⟩, rfl⟩)
  exact linked.addDeps stretch.of_concat.ids_nodup known []

/-- The graph with the new change. -/
theorem Tabled.graphed {next : TimelineState}
    (linked : Linked F done (rowCID F row) row.deps (noteRow F st row) next)
    {change : TimelineChange} (isLeaf : change.children = []) :
    Graphed F (done ++ [row]) (Function.update next.out.changes (rowCID F row) (some change)) := by
  constructor
  · intro c
    by_cases here : c = rowCID F row
    · rw [here, Function.update_self]
      exact ⟨fun _ => ⟨row, by simp, rfl⟩, fun _ => rfl⟩
    · rw [Function.update_of_ne here, linked.changes]
      refine tabled.changes.trans (exists_congr fun other => ?_)
      rw [IsChange, IsChange, List.mem_append, List.mem_singleton]
      constructor
      · exact fun old => ⟨.inl old.1, old.2⟩
      · rintro ⟨old | rfl, rfl⟩
        · exact ⟨old, rfl⟩
        · exact absurd rfl here
  · rintro other c known ⟨isOther, rfl⟩ found child
    rcases List.mem_append.mp isOther with old | new
    · rw [Function.update_of_ne (stretch.cid_ne old)] at found
      rcases linked.children ⟨old, rfl⟩ found with ⟨before, isBefore, mem_children⟩
      rw [mem_children, tabled.children ⟨old, rfl⟩ isBefore]
      constructor
      · rintro (⟨kid, ⟨isKid, rfl⟩, isDep⟩ | ⟨rfl, isDep⟩)
        · exact ⟨kid, ⟨List.mem_append_left _ isKid, rfl⟩, isDep⟩
        · exact ⟨row, ⟨by simp, rfl⟩, isDep⟩
      · rintro ⟨kid, ⟨isKid, rfl⟩, isDep⟩
        rcases List.mem_append.mp isKid with oldKid | newKid
        · exact .inl ⟨kid, ⟨oldKid, rfl⟩, isDep⟩
        · obtain rfl := List.mem_singleton.mp newKid
          exact .inr ⟨rfl, isDep⟩
    · obtain rfl := List.mem_singleton.mp new
      rw [Function.update_self] at found
      cases found
      rw [isLeaf]
      refine ⟨fun isLeaf => absurd isLeaf List.not_mem_nil, ?_⟩
      rintro ⟨kid, isKid, isDep⟩
      exact absurd isDep (stretch.not_dep isKid.1)

omit stretch

/-- The heads of an author, none of a new one. -/
theorem Tabled.mem_authorHeads (a : String) :
    ((st.headsByAuthor a).getD .empty).slice.Nodup ∧
      ∀ {c}, c ∈ ((st.headsByAuthor a).getD .empty).slice ↔
        ∃ row, IsChange F done row c ∧ F.principalString row.author = a ∧
          IsAuthorHead F rows done row := by
  cases found : st.headsByAuthor a with
  | some set => exact tabled.headsByAuthor found
  | none =>
      refine ⟨List.nodup_nil, fun {c} => ⟨nofun, ?_⟩⟩
      rintro ⟨row, ⟨isRow, -⟩, isAuthor, -⟩
      have isSome := tabled.isAuthor.mpr ⟨row, isRow, isAuthor⟩
      simp [found] at isSome

include stretch

/-- The heads of the author from which the new change does not descend stay. -/
theorem Tabled.prune (a : String) {changes : String → Option TimelineChange}
    (graphed : Graphed F (done ++ [row]) changes) : ∃ set',
    Converges (fun fuel => ((st.headsByAuthor a).getD .empty).prune fun head =>
      isDescendant fuel changes head (rowCID F row)) (.ok set') ∧ set'.slice.Nodup ∧
      ∀ c, c ∈ set'.slice ↔ ∃ other, IsChange F done other c ∧
        F.principalString other.author = a ∧ IsAuthorHead F rows done other ∧
          ¬ TransGen (DepEdge rows) other.idShort row.idShort := by
  classical
  rcases tabled.mem_authorHeads a with ⟨nodup, mem_heads⟩
  have decides : ∀ head ∈ ((st.headsByAuthor a).getD .empty).slice,
      Converges (fun fuel => isDescendant fuel changes head (rowCID F row))
        (.ok (!!decide (∃ other, IsChange F done other head ∧
          TransGen (DepEdge rows) other.idShort row.idShort))) := by
    intro head isHead
    rcases mem_heads.mp isHead with ⟨other, ⟨isOther, rfl⟩, -, -⟩
    have searched := graphed.isDescendant_converges stretch (List.mem_append_left _ isOther)
      (show row ∈ done ++ [row] by simp)
    have same : (∃ other', IsChange F done other' (rowCID F other) ∧
        TransGen (DepEdge rows) other'.idShort row.idShort) ↔
          TransGen (DepEdge rows) other.idShort row.idShort := by
      constructor
      · rintro ⟨other', ⟨-, sameCID⟩, path⟩
        exact rowCID_inj sameCID ▸ path
      · exact fun path => ⟨other, ⟨isOther, rfl⟩, path⟩
    rw [Bool.not_not]
    simpa only [same] using searched
  rcases SmallSet.prune_converges nodup (fun c => !decide (∃ other, IsChange F done other c ∧
      TransGen (DepEdge rows) other.idShort row.idShort)) decides with
    ⟨set', pruned, nodup', mem_iff⟩
  refine ⟨set', pruned, nodup', fun c => ?_⟩
  rw [mem_iff, mem_heads, Bool.not_eq_true', decide_eq_false_iff_not]
  constructor
  · rintro ⟨⟨other, isOther, isAuthor, isHead⟩, notBelow⟩
    exact ⟨other, isOther, isAuthor, isHead, fun path => notBelow ⟨other, isOther, path⟩⟩
  · rintro ⟨other, isOther, isAuthor, isHead, notBelow⟩
    refine ⟨⟨other, isOther, isAuthor, isHead⟩, ?_⟩
    rintro ⟨other', isOther', path⟩
    exact notBelow (rowCID_inj (isOther'.2.trans isOther.2.symm) ▸ path)

section Fields

variable {next : TimelineState}
variable (linked : Linked F done (rowCID F row) row.deps (noteRow F st row) next)

omit stretch
include linked

/-- The author of the new row has heads, those from before it. -/
theorem Tabled.headsByAuthor_eq : next.headsByAuthor =
    Function.update st.headsByAuthor (F.principalString row.author)
      (some ((st.headsByAuthor (F.principalString row.author)).getD .empty)) :=
  tabled.rowAuthor_eq row ▸ congrArg TimelineState.headsByAuthor linked.same

theorem Tabled.account_of_linked {p a} : next.accountLookup p = some a ↔
    (∃ other ∈ done ++ [row], other.author = p) ∧ F.principalString p = a := by
  have account_eq : next.accountLookup = Function.update st.accountLookup row.author
      (some (F.principalString row.author)) :=
    tabled.rowAuthor_eq row ▸ congrArg TimelineState.accountLookup linked.same
  rw [exists_concat_iff, account_eq]
  by_cases here : p = row.author
  · subst here
    simp
  · rw [Function.update_of_ne here, tabled.account]
    simp [Ne.symm here]

theorem Tabled.accounts_eq : next.accounts = st.accounts.put (F.principalString row.author) :=
  tabled.rowAuthor_eq row ▸ congrArg TimelineState.accounts linked.same

/-- The authors of the rows are those with heads. -/
theorem Tabled.isAuthor_of_linked (set : SmallSet String) {a} :
    (Function.update next.headsByAuthor (F.principalString row.author) (some set) a).isSome ↔
      ∃ other ∈ done ++ [row], F.principalString other.author = a := by
  rw [exists_concat_iff, tabled.headsByAuthor_eq linked]
  by_cases here : a = F.principalString row.author
  · simp [here]
  · rw [Function.update_of_ne here, Function.update_of_ne here, tabled.isAuthor]
    simp [Ne.symm here]

include stretch

/-- The new change is found under its number, and the others as before. -/
theorem Tabled.lookup_of_linked {k c} : next.changeLookup k = some c ↔
    ∃ other, IsChange F (done ++ [row]) other c ∧ other.idShort = k := by
  have lookup_eq : next.changeLookup =
      Function.update st.changeLookup row.idShort (some (rowCID F row)) :=
    congrArg TimelineState.changeLookup linked.same
  rw [lookup_eq, exists_isChange_concat_iff]
  by_cases here : k = row.idShort
  · subst here
    rw [Function.update_self, Option.some_inj]
    constructor
    · exact fun same => .inr ⟨same, rfl⟩
    · rintro (⟨other, ⟨isOther, -⟩, same⟩ | ⟨same, -⟩)
      · exact absurd (same ▸ List.mem_map_of_mem isOther) stretch.fresh
      · exact same
  · rw [Function.update_of_ne here, tabled.lookup]
    simp [Ne.symm here]

/-- The new change is a head, and the others that it does not depend on. -/
theorem Tabled.mem_heads_of_linked {c} : c ∈ (next.heads.put (rowCID F row)).slice ↔
    ∃ other, IsChange F (done ++ [row]) other c ∧
      ∀ child ∈ done ++ [row], other.idShort ∉ child.deps := by
  rw [SmallSet.mem_put, linked.mem_heads, exists_isChange_concat_iff]
  apply or_congr
  · constructor
    · rintro ⟨isHead, notDep⟩
      rcases tabled.mem_heads.mp isHead with ⟨other, isOther, isLeaf⟩
      refine ⟨other, isOther, fun child isChild => ?_⟩
      rcases List.mem_append.mp isChild with old | new
      · exact isLeaf child old
      · exact List.mem_singleton.mp new ▸ notDep other isOther
    · rintro ⟨other, isOther, isLeaf⟩
      refine ⟨tabled.mem_heads.mpr ⟨other, isOther, fun child isChild =>
        isLeaf child (List.mem_append_left _ isChild)⟩, fun same isSame => ?_⟩
      rw [rowCID_inj (isSame.2.trans isOther.2.symm)]
      exact isLeaf row (by simp)
  · exact ⟨fun same => ⟨same.symm, fun child isChild => stretch.not_dep isChild⟩,
      fun same => same.1.symm⟩

/-- The heads of every author, after those of the new author were pruned. -/
theorem Tabled.headsByAuthor_of_linked {authorHeads : SmallSet String}
    (nodup : authorHeads.slice.Nodup)
    (mem_authorHeads : ∀ c, c ∈ authorHeads.slice ↔ ∃ other, IsChange F done other c ∧
      F.principalString other.author = F.principalString row.author ∧
        IsAuthorHead F rows done other ∧
          ¬ TransGen (DepEdge rows) other.idShort row.idShort)
    {a : String} {set : SmallSet String}
    (isSet : Function.update next.headsByAuthor (F.principalString row.author)
      (some (authorHeads.put (rowCID F row))) a = some set) :
    set.slice.Nodup ∧ ∀ {c}, c ∈ set.slice ↔ ∃ other, IsChange F (done ++ [row]) other c ∧
      F.principalString other.author = a ∧ IsAuthorHead F rows (done ++ [row]) other := by
  rw [tabled.headsByAuthor_eq linked] at isSet
  by_cases here : a = F.principalString row.author
  · subst here
    rw [Function.update_self] at isSet
    cases isSet
    refine ⟨SmallSet.nodup_put nodup _, fun {c} => ?_⟩
    rw [SmallSet.mem_put, mem_authorHeads, exists_isChange_concat_iff]
    refine or_congr (exists_congr fun other => ?_) ?_
    · refine and_congr_right fun _ => and_congr_right fun sameAuthor => ?_
      rw [isAuthorHead_concat_iff]
      exact and_congr_right fun _ =>
        ⟨fun notBelow _ => notBelow, fun notBelow => notBelow sameAuthor.symm⟩
    · exact ⟨fun same => ⟨same.symm, rfl, stretch.isAuthorHead_new⟩, fun same => same.1.symm⟩
  · rw [Function.update_of_ne here, Function.update_of_ne here] at isSet
    rcases tabled.headsByAuthor isSet with ⟨nodup, mem_heads⟩
    refine ⟨nodup, fun {c} => ?_⟩
    rw [mem_heads, exists_isChange_concat_iff]
    constructor
    · rintro ⟨other, isOther, isAuthor, isHead⟩
      refine .inl ⟨other, isOther, isAuthor, isAuthorHead_concat_iff.mpr ⟨isHead, ?_⟩⟩
      exact fun sameAuthor => absurd (isAuthor.symm.trans sameAuthor.symm) here
    · rintro (⟨other, isOther, isAuthor, isHead⟩ | ⟨-, isAuthor, -⟩)
      · exact ⟨other, isOther, isAuthor, (isAuthorHead_concat_iff.mp isHead).1⟩
      · exact absurd isAuthor.symm here

end Fields

/-- Adding a row whose dependencies are there. -/
theorem Tabled.addRow_settles : ∃ (next : TimelineState × List String)
    (authorHeads : SmallSet String),
    Attempt.Settles (fun fuel => addRow F fuel st row) (next.1.listChange
      (timelineChange F row (F.principalString row.author) next.2) authorHeads) ∧
    Linked F done (rowCID F row) row.deps (noteRow F st row) next.1 ∧
    authorHeads.slice.Nodup ∧
    ∀ c, c ∈ authorHeads.slice ↔ ∃ other, IsChange F done other c ∧
      F.principalString other.author = F.principalString row.author ∧
        IsAuthorHead F rows done other ∧
          ¬ TransGen (DepEdge rows) other.idShort row.idShort := by
  rcases tabled.addDeps stretch with ⟨next, linkedAll, linked⟩
  have graphed : Graphed F (done ++ [row]) (Function.update next.1.out.changes (rowCID F row)
      (some (timelineChange F row (F.principalString row.author) next.2))) :=
    tabled.graphed stretch linked rfl
  rcases tabled.prune stretch (F.principalString row.author) graphed with
    ⟨authorHeads, pruned, nodup, mem_heads⟩
  refine ⟨next, authorHeads, ?_, linked, nodup, mem_heads⟩
  have isAuthor : next.1.headsByAuthor (F.principalString row.author) =
      some ((st.headsByAuthor (F.principalString row.author)).getD .empty) := by
    rw [tabled.headsByAuthor_eq linked, Function.update_self]
  have prunes := Attempt.Settles.lift pruned
  have last : Attempt.Settles (fun fuel => ExceptT.lift
      (((st.headsByAuthor (F.principalString row.author)).getD .empty).prune fun head =>
        isDescendant fuel (Function.update next.1.out.changes (rowCID F row)
          (some (timelineChange F row (F.principalString row.author) next.2))) head
            (rowCID F row)) >>= fun authorHeads => pure (next.1.listChange
              (timelineChange F row (F.principalString row.author) next.2) authorHeads))
      (next.1.listChange (timelineChange F row (F.principalString row.author) next.2)
        authorHeads) :=
    prunes.bind_iff.mpr (.const (Attempt.returns_pure.mpr rfl))
  rcases last with ⟨enough, last⟩
  refine ⟨enough, fun fuel large => ?_⟩
  change (Hyper.addRow F fuel st row).Returns _
  rw [Hyper.addRow, tabled.rowAuthor_eq, Attempt.returns_bind]
  refine ⟨next, linkedAll, ?_⟩
  simp only [isAuthor]
  exact last fuel large

/-- Adding a row whose dependencies are there. -/
theorem Tabled.addRow : ∃ st', Attempt.Settles (fun fuel => Hyper.addRow F fuel st row) st' ∧
    Tabled F rows (done ++ [row]) st' := by
  rcases tabled.addRow_settles stretch with
    ⟨⟨next, deps⟩, authorHeads, settles, linked, nodup, mem_authorHeads⟩
  have graphed : Graphed F (done ++ [row]) (Function.update next.out.changes (rowCID F row)
      (some (timelineChange F row (F.principalString row.author) deps))) :=
    tabled.graphed stretch linked rfl
  refine ⟨_, settles, ?_⟩
  constructor
  · exact tabled.lookup_of_linked stretch linked
  · exact tabled.account_of_linked linked
  · change next.accounts.slice.Nodup
    rw [tabled.accounts_eq linked]
    exact SmallSet.nodup_put tabled.accounts_nodup _
  · intro a
    change a ∈ next.accounts.slice ↔ _
    rw [tabled.accounts_eq linked, SmallSet.mem_put, tabled.mem_accounts, exists_concat_iff,
      eq_comm (a := a)]
  · have byTime_eq : next.out.changesByTime = st.out.changesByTime ++ [rowCID F row] :=
      congrArg (fun st : TimelineState => st.out.changesByTime) linked.same
    change next.out.changesByTime = _
    rw [byTime_eq, tabled.byTime, List.map_append, List.map_singleton]
  · have roots_eq : next.out.roots =
        if row.deps = [] then st.out.roots ++ [rowCID F row] else st.out.roots :=
      congrArg (fun st : TimelineState => st.out.roots) linked.same
    change next.out.roots = _
    rw [roots_eq, tabled.roots, List.filter_append, List.map_append]
    by_cases isRoot : row.deps = [] <;> simp [isRoot]
  · exact graphed.present
  · exact graphed.children
  · exact SmallSet.nodup_put linked.heads_nodup _
  · exact tabled.mem_heads_of_linked stretch linked
  · exact tabled.headsByAuthor_of_linked stretch linked nodup mem_authorHeads
  · exact tabled.isAuthor_of_linked linked _

end Step

/-! ## All rows -/

/-- A row that is added has no dependency but itself and the rows before it. -/
theorem Tabled.deps_of_returns {fuel : Nat} (tabled : Tabled F rows done st)
    (returns : (Hyper.addRow F fuel st row).Returns st') (notSelf : row.idShort ∉ row.deps) :
    DepsDone done row := by
  rw [Hyper.addRow, Attempt.returns_bind] at returns
  rcases returns with ⟨next, linked, -⟩
  intro dep isDep
  have found := lookup_of_addDeps linked dep isDep
  have differs : dep ≠ row.idShort := fun same => notSelf (same ▸ isDep)
  have isKnown : (st.changeLookup dep).isSome := by
    rwa [show (noteRow F st row).changeLookup dep = st.changeLookup dep from
      Function.update_of_ne differs _ _] at found
  rcases Option.isSome_iff_exists.mp isKnown with ⟨c, isKnown⟩
  rcases tabled.lookup.mp isKnown with ⟨other, isOther, same⟩
  exact ⟨other, isOther.1, same⟩

theorem DepsFirst.concat (first : DepsFirst done) (depsDone : DepsDone done row) :
    DepsFirst (done ++ [row]) := by
  intro seen next later split
  rcases List.eq_nil_or_concat' later with rfl | ⟨front, last, rfl⟩
  · rcases List.append_inj' split rfl with ⟨rfl, same⟩
    cases same
    exact depsDone
  · have split' : done ++ [row] = (seen ++ next :: front) ++ [last] := by simpa using split
    rcases List.append_inj' split' rfl with ⟨rfl, -⟩
    exact first seen next front rfl

/-- The next row is added when its dependencies are done. -/
theorem Tabled.addNext (ids : (rows.map TimelineRow.idShort).Nodup)
    (split : rows = done ++ row :: rest) (tabled : Tabled F rows done st)
    (first : DepsFirst done) (depsDone : DepsDone done row) :
    ∃ next, Attempt.Settles (fun fuel => Hyper.addRow F fuel st row) next ∧
      Tabled F rows (done ++ [row]) next := by
  have split' : rows = (done ++ [row]) ++ rest := by simpa using split
  exact tabled.addRow ⟨ids, split' ▸ List.prefix_append _ _, first.concat depsDone⟩

/-- When all rows are processed, the dependencies of every row come before it. -/
theorem Tabled.depsFirst_of_returns (ids : (rows.map TimelineRow.idShort).Nodup)
    (notSelf : ∀ row ∈ rows, row.idShort ∉ row.deps) (split : rows = done ++ rest)
    (tabled : Tabled F rows done st) (first : DepsFirst done)
    (returns : ∃ enough, ∀ fuel, enough ≤ fuel →
      ∃ st', (rest.foldlM (Hyper.addRow F fuel) st).Returns st') : DepsFirst rows := by
  induction rest generalizing done st with
  | nil =>
      rw [List.append_nil] at split
      exact split ▸ first
  | cons row rest induction =>
      rcases returns with ⟨enough, returns⟩
      have depsDone : DepsDone done row := by
        rcases returns enough le_rfl with ⟨st', whole⟩
        rw [List.foldlM_cons, Attempt.returns_bind] at whole
        rcases whole with ⟨next, added, -⟩
        exact tabled.deps_of_returns added (notSelf row (by simp [split]))
      rcases tabled.addNext ids split first depsDone with ⟨next, ⟨enough', added⟩, tabled'⟩
      refine induction (by simpa using split) tabled' (first.concat depsDone)
        ⟨max enough enough', fun fuel large => ?_⟩
      rcases returns fuel (le_trans (le_max_left _ _) large) with ⟨st', whole⟩
      rw [List.foldlM_cons, Attempt.returns_bind] at whole
      rcases whole with ⟨next', added', rest⟩
      cases (added fuel (le_trans (le_max_right _ _) large)).unique added'
      exact ⟨st', rest⟩

/-- When the dependencies of every row come before it, all rows are processed. -/
theorem Tabled.addRows (ids : (rows.map TimelineRow.idShort).Nodup)
    (split : rows = done ++ rest) (tabled : Tabled F rows done st) (first : DepsFirst rows) :
    ∃ st', Attempt.Settles (fun fuel => rest.foldlM (Hyper.addRow F fuel) st) st' ∧
      Tabled F rows rows st' := by
  induction rest generalizing done st with
  | nil =>
      rw [List.append_nil] at split
      exact ⟨st, .const (Attempt.returns_pure.mpr rfl), split ▸ tabled⟩
  | cons row rest induction =>
      have isFirst : DepsFirst done := (split ▸ first).of_append
      rcases tabled.addNext ids split isFirst (first done row rest split) with
        ⟨next, added, tabled'⟩
      rcases induction (by simpa using split) tabled' with ⟨st', settles, tabled''⟩
      refine ⟨st', ?_, tabled''⟩
      simp only [List.foldlM_cons]
      exact added.bind_iff.mpr settles

/-! ## The response -/

/-- The last change of an author is one of the author's heads. -/
theorem Stretch.exists_authorHead (stretch : Stretch rows done) {a : String}
    (wrote : ∃ row ∈ done, F.principalString row.author = a) :
    ∃ row ∈ done, F.principalString row.author = a ∧ IsAuthorHead F rows done row := by
  induction done using List.reverseRecOn with
  | nil => simp at wrote
  | append_singleton done row induction =>
      by_cases isAuthor : F.principalString row.author = a
      · exact ⟨row, by simp, isAuthor, stretch.isAuthorHead_new⟩
      · rw [exists_concat_iff] at wrote
        rcases induction stretch.of_concat (wrote.resolve_right isAuthor) with
          ⟨other, isOther, isOtherAuthor, isHead⟩
        refine ⟨other, List.mem_append_left _ isOther, isOtherAuthor,
          isAuthorHead_concat_iff.mpr ⟨isHead, fun same => ?_⟩⟩
        exact absurd (same.trans isOtherAuthor) isAuthor

section Response

variable {order : TimelineOrder} {owner : Option Principal} {a : String}

theorem sortChanges_perm (order : TimelineOrder) (changes : String → Option TimelineChange)
    (heads : List String) : (sortChanges order changes heads).Perm heads :=
  (orderBy_perm _ _ _).trans (order.shuffle_perm heads)

/-- The heads of the author are listed, each once. -/
def ListsAuthorHeads (F : Formats Data) (rows : List TimelineRow) (version : AuthorVersion) :
    Prop :=
  version.heads.Nodup ∧ ∀ c, c ∈ version.heads ↔ ∃ row, IsChange F rows row c ∧
    F.principalString row.author = version.author ∧ IsAuthorHead F rows rows row

/-- The heads of an author, sorted. -/
theorem Tabled.authorVersion (tabled : Tabled F rows rows st) (stretch : Stretch rows rows)
    (order : TimelineOrder) (wrote : ∃ row ∈ rows, F.principalString row.author = a) :
    ∃ version, (Hyper.authorVersion order st a).Returns version ∧ version.author = a ∧
      ListsAuthorHeads F rows version := by
  rcases Option.isSome_iff_exists.mp (tabled.isAuthor.mpr wrote) with ⟨set, isSet⟩
  rcases tabled.headsByAuthor isSet with ⟨nodup, mem_heads⟩
  have sorted := sortChanges_perm order st.out.changes set.slice
  rcases stretch.exists_authorHead wrote with ⟨row, isRow, isAuthor, isHead⟩
  have member : rowCID F row ∈ sortChanges order st.out.changes set.slice :=
    sorted.mem_iff.mpr (mem_heads.mpr ⟨row, ⟨isRow, rfl⟩, isAuthor, isHead⟩)
  rcases SmallSet.exists_getLast? member with ⟨last, isLast⟩
  rcases mem_heads.mp (sorted.mem_iff.mp (List.mem_of_getLast? isLast)) with
    ⟨lastRow, isLastRow, -⟩
  rcases Option.isSome_iff_exists.mp (tabled.changes.mpr ⟨lastRow, isLastRow⟩) with
    ⟨change, isChange⟩
  refine ⟨{
    author := a
    heads := sortChanges order st.out.changes set.slice
    version := String.intercalate "." (sortChanges order st.out.changes set.slice)
    versionTime := change.createTime }, ?_, rfl, sorted.nodup_iff.mpr nodup, fun c => ?_⟩
  · simp only [Hyper.authorVersion, isSet, isLast, isChange, Attempt.returns_pure]
  · exact sorted.mem_iff.trans mem_heads

/-- What the response says about the rows. -/
structure Responds (F : Formats Data) (rows : List TimelineRow) (out : EntityTimeline) :
    Prop where
  changes : ∀ {c}, (out.changes c).isSome ↔ ∃ row, IsChange F rows row c
  byTime : out.changesByTime = rows.map (rowCID F)
  roots : out.roots = (rows.filter fun row => row.deps = []).map (rowCID F)
  heads_nodup : out.heads.Nodup
  mem_heads : ∀ {c}, c ∈ out.heads ↔
    ∃ row, IsChange F rows row c ∧ ∀ other ∈ rows, row.idShort ∉ other.deps
  authors_nodup : (out.authorVersions.map AuthorVersion.author).Nodup
  mem_authors : ∀ {a}, a ∈ out.authorVersions.map AuthorVersion.author ↔
    ∃ row ∈ rows, F.principalString row.author = a
  authorHeads : ∀ version ∈ out.authorVersions, ListsAuthorHeads F rows version

/-- When the owner wrote one of the changes the response is finished. -/
theorem Tabled.finishTimeline (tabled : Tabled F rows rows st) (stretch : Stretch rows rows)
    (order : TimelineOrder) (wrote : ∃ row ∈ rows, some row.author = owner) :
    ∃ out, (Hyper.finishTimeline order owner st).Returns out ∧ Responds F rows out := by
  rcases wrote with ⟨row, isRow, rfl⟩
  have known : (some row.author).bind st.accountLookup = some (F.principalString row.author) :=
    tabled.account.mpr ⟨⟨row, isRow, rfl⟩, rfl⟩
  rcases Attempt.returns_mapM AuthorVersion.author fun a isAccount =>
    tabled.authorVersion stretch order (tabled.mem_accounts.mp isAccount) with
    ⟨versions, returns, authors_eq, fine⟩
  refine ⟨{ st.out with
    owner := F.principalString row.author
    heads := sortChanges order st.out.changes st.heads.slice
    authorVersions := versions }, ?_, ?_⟩
  · simp only [Hyper.finishTimeline, known]
    rw [Attempt.returns_bind]
    exact ⟨versions, returns, Attempt.returns_pure.mpr rfl⟩
  · have sorted := sortChanges_perm order st.out.changes st.heads.slice
    constructor
    · exact tabled.changes
    · exact tabled.byTime
    · exact tabled.roots
    · exact sorted.nodup_iff.mpr tabled.heads_nodup
    · exact sorted.mem_iff.trans tabled.mem_heads
    · exact authors_eq ▸ tabled.accounts_nodup
    · intro a
      rw [authors_eq]
      exact tabled.mem_accounts
    · exact fine

/-- The response is finished only when the owner wrote one of the changes. -/
theorem Tabled.owner_of_returns (tabled : Tabled F rows rows st) {out : EntityTimeline}
    (returns : (Hyper.finishTimeline order owner st).Returns out) :
    ∃ row ∈ rows, some row.author = owner := by
  rw [Hyper.finishTimeline] at returns
  cases found : owner.bind st.accountLookup with
  | none => simp [found] at returns
  | some name =>
      rcases Option.bind_eq_some_iff.mp found with ⟨p, rfl, isKnown⟩
      rcases (tabled.account.mp isKnown).1 with ⟨row, isRow, rfl⟩
      exact ⟨row, isRow, rfl⟩

/-- A response without changes. -/
theorem emptyTimeline_responds (F : Formats Data) (id : String) :
    Responds F [] (emptyTimeline id) := by
  constructor <;> simp [emptyTimeline, IsChange]

end Response

end Mintter.Hyper
