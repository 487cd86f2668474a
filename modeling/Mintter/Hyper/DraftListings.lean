import Mintter.Hyper.Listings

/-!
# Listing drafts

The query for drafts selects the drafts of a page by the time of the draft and the
number of its resource, follows their dependencies and groups the changes by
document.  A draft is tidy when it is the last of the changes it depends on and
these are all of its document; then a page of drafts is a page of documents.

`documents_listed_iff` says of publications and of tidy drafts when following the
page tokens lists every document once and in order.
-/

namespace Mintter.Hyper

open Mintter.Foundation

variable {Data : Type}

/-! ## Drafts -/

section Drafts

variable {s : Store Data} {numbers : ResourceNumbers s} {size : Nat}
variable {draft draft' : DraftRow × StructuralBlobRow}
variable {drafts : List (DraftRow × StructuralBlobRow)}
variable {numbered : Int × ResourceRow} {row : DocumentRow}

/-- The document of a draft, from the changes that the draft depends on. -/
def draftRow (s : Store Data) (draft : DraftRow × StructuralBlobRow)
    (numbered : Int × ResourceRow) : Option DocumentRow :=
  documentRow numbered
    ((draftChanges s [draft]).filter (·.resource == some numbered.2.iri))

/-- The rows list the document of every draft once and in order. -/
structure ListsDrafts (numbers : ResourceNumbers s) (rows : List DocumentRow) :
    Prop where
  ordered : rows.Pairwise fun x y => Behind true (toLex x.draftKey) (toLex y.draftKey)
  drafts : ∀ row ∈ rows, ∃ draft ∈ s.draftBlobs, ∃ numbered ∈ numbers.rows,
    numbered.2.iri = draft.1.resource ∧ draftRow s draft numbered = some row
  complete : ∀ draft ∈ s.drafts, ∃ blob numbered, (draft, blob) ∈ s.draftBlobs ∧
    numbered ∈ numbers.rows ∧ numbered.2.iri = draft.resource ∧
    ∃ row ∈ rows, draftRow s (draft, blob) numbered = some row

/--
The draft is a change of its document, which has an owner, and the last one among
the changes that it depends on, which are changes of the document as well.
-/
structure TidyDraft (numbers : ResourceNumbers s)
    (draft : DraftRow × StructuralBlobRow) : Prop where
  resource : draft.2.resource = some draft.1.resource
  owned : ∃ numbered ∈ numbers.rows, numbered.2.iri = draft.1.resource ∧
    numbered.2.owner.isSome = true
  authored : draft.2.author.isSome = true
  dated : ∃ t, draft.2.ts = some t ∧ t < maxInt64 ∧
    ∀ change ∈ draftChanges s [draft], sqlKey change.ts ≤ t
  within : ∀ change ∈ draftChanges s [draft], change.resource = draft.2.resource

/-- Each draft has an indexed blob and is tidy; resources and blobs are unique. -/
structure TidyDrafts (numbers : ResourceNumbers s) : Prop where
  blobs : (s.structuralBlobs.map (·.blob)).Nodup
  resources : (s.drafts.map (·.resource)).Nodup
  indexed : ∀ draft ∈ s.drafts, ∃ row ∈ s.structuralBlobs, row.blob = draft.blob
  tidy : ∀ draft ∈ s.draftBlobs, TidyDraft numbers draft

/-- The drafts in the order of the listing. -/
def ResourceNumbers.allDrafts (numbers : ResourceNumbers s) :
    List (DraftRow × StructuralBlobRow) :=
  orderBy true (toLex ∘ numbers.draftKey) s.draftBlobs

/-- The document of a draft among the resources. -/
def ResourceNumbers.documentOf (numbers : ResourceNumbers s)
    (draft : DraftRow × StructuralBlobRow) : DocumentRow :=
  ((numbers.rows.find? (·.2.iri == draft.1.resource)).bind (draftRow s draft)).getD
    default

theorem mem_draftBlobs : draft ∈ s.draftBlobs ↔
    draft.1 ∈ s.drafts ∧ draft.2 ∈ s.structuralBlobs ∧ draft.2.blob = draft.1.blob := by
  rw [Store.draftBlobs, List.mem_flatMap]
  constructor
  · rintro ⟨_, isDraft, member⟩
    rcases List.mem_map.mp member with ⟨blob, isBlob, rfl⟩
    rcases List.mem_filter.mp isBlob with ⟨isRow, same⟩
    exact ⟨isDraft, isRow, beq_iff_eq.mp same⟩
  · rintro ⟨isDraft, isRow, same⟩
    refine ⟨draft.1, isDraft, List.mem_map.mpr ⟨draft.2, ?_, rfl⟩⟩
    exact List.mem_filter.mpr ⟨isRow, beq_iff_eq.mpr same⟩

/-- What drafts depend on, one draft at a time. -/
theorem mem_draftChanges {change : StructuralBlobRow} :
    change ∈ draftChanges s drafts ↔ change ∈ s.structuralBlobs ∧
      ∃ draft ∈ drafts, change ∈ draftChanges s [draft] := by
  simp only [draftChanges, List.mem_filter, List.contains_iff_mem,
    Foundation.mem_closure_iff, List.map_cons, List.map_nil, List.mem_singleton,
    exists_eq_left, List.mem_map]
  constructor
  · rintro ⟨isRow, _, ⟨draft, member, rfl⟩, path⟩
    exact ⟨isRow, draft, member, isRow, path⟩
  · rintro ⟨isRow, draft, member, -, path⟩
    exact ⟨isRow, _, ⟨draft, member, rfl⟩, path⟩

theorem mem_draftChanges_self (isDraft : draft ∈ s.draftBlobs) :
    draft.2 ∈ draftChanges s [draft] := by
  apply List.mem_filter.mpr
  refine ⟨(mem_draftBlobs.mp isDraft).2.1, ?_⟩
  rw [List.contains_iff_mem]
  exact Foundation.subset_closure List.mem_cons_self

/-- The drafts of a resource are one. -/
theorem TidyDrafts.unique (tidy : TidyDrafts numbers) (isDraft : draft ∈ s.draftBlobs)
    (isDraft' : draft' ∈ s.draftBlobs)
    (same : draft.1.resource = draft'.1.resource) : draft = draft' := by
  rcases mem_draftBlobs.mp isDraft with ⟨member, isRow, isBlob⟩
  rcases mem_draftBlobs.mp isDraft' with ⟨member', isRow', isBlob'⟩
  have sameDraft : draft.1 = draft'.1 :=
    List.inj_on_of_nodup_map tidy.resources member member' same
  apply Prod.ext sameDraft
  apply List.inj_on_of_nodup_map tidy.blobs isRow isRow'
  rw [isBlob, isBlob', sameDraft]

/-- A resource is found by its IRI. -/
theorem find_iri (member : numbered ∈ numbers.rows) :
    numbers.rows.find? (·.2.iri == numbered.2.iri) = some numbered := by
  cases isFound : numbers.rows.find? (·.2.iri == numbered.2.iri) with
  | none =>
      have absent := List.find?_eq_none.mp isFound numbered member
      exact absurd (beq_self_eq_true _) absent
  | some found =>
      have same := List.find?_some isFound
      rw [beq_iff_eq] at same
      have isRow := List.mem_of_find?_eq_some isFound
      rw [List.inj_on_of_nodup_map numbers.iris_nodup isRow member same]

/-- The document of a tidy draft has the key of the draft. -/
theorem TidyDraft.documentOf_spec (tidy : TidyDraft numbers draft)
    (isDraft : draft ∈ s.draftBlobs) :
    (∃ numbered ∈ numbers.rows, numbered.2.iri = draft.1.resource ∧
      draftRow s draft numbered = some (numbers.documentOf draft)) ∧
    (numbers.documentOf draft).draftKey = numbers.draftKey draft := by
  rcases tidy.owned with ⟨numbered, member, isIri, owned⟩
  rcases tidy.dated with ⟨t, isTime, -, latest⟩
  have isChange : draft.2 ∈ ((draftChanges s [draft]).filter
      (·.resource == some numbered.2.iri)).filter (·.author.isSome) := by
    apply List.mem_filter.mpr
    refine ⟨List.mem_filter.mpr ⟨mem_draftChanges_self isDraft, ?_⟩, tidy.authored⟩
    rw [beq_iff_eq, tidy.resource, isIri]
  rcases exists_documentRow owned (List.ne_nil_of_mem isChange) with ⟨row, isRow⟩
  have found : numbers.documentOf draft = row := by
    rw [ResourceNumbers.documentOf, ← isIri, find_iri member, Option.bind_some,
      draftRow, isRow, Option.getD_some]
  rcases documentRow_eq_some isRow with ⟨-, isNumber, isUpdate, -⟩
  have updated : row.updateTime = some t := by
    rw [isUpdate, updateTime, List.max?_eq_some_iff]
    constructor
    · exact List.mem_filterMap.mpr ⟨draft.2, isChange, isTime⟩
    · intro t' isMember
      rcases List.mem_filterMap.mp isMember with ⟨change, inside, isTime'⟩
      have inside' := (List.mem_filter.mp (List.mem_filter.mp inside).1).1
      have notLater := latest change inside'
      rw [isTime'] at notLater
      exact WithBot.coe_le_coe.mp notLater
  constructor
  · exact ⟨numbered, member, isIri, found ▸ isRow⟩
  · rw [found, DocumentRow.draftKey, ResourceNumbers.draftKey, updated, isTime,
      isNumber, tidy.resource, Option.bind_some, ResourceNumbers.number, ← isIri,
      find_iri member]
    rfl

/-- Selected drafts have their own documents, and no others. -/
theorem TidyDrafts.mem_draftRows (tidy : TidyDrafts numbers)
    (subset : drafts ⊆ s.draftBlobs) :
    row ∈ numbers.draftRows drafts ↔
      ∃ draft ∈ drafts, numbers.documentOf draft = row := by
  -- The changes of a document are those that its own draft depends on.
  have own : ∀ {draft} {numbered : Int × ResourceRow}, draft ∈ drafts →
      numbered.2.iri = draft.1.resource →
      (draftChanges s drafts).filter (·.resource == some numbered.2.iri) =
        (draftChanges s [draft]).filter (·.resource == some numbered.2.iri) := by
    intro draft numbered member isIri
    rw [draftChanges, draftChanges, List.filter_filter, List.filter_filter]
    apply List.filter_congr
    intro change isRow
    rw [Bool.eq_iff_iff, Bool.and_eq_true, Bool.and_eq_true, beq_iff_eq]
    apply and_congr_right
    intro isResource
    have inside : ∀ {drafts}, change ∈ draftChanges s drafts ↔
        (Foundation.closure (selectedDeps s fun _ => true)
          (drafts.map (·.2.blob))).contains change.blob = true :=
      List.mem_filter.trans (and_iff_right isRow)
    rw [← inside, ← inside, mem_draftChanges]
    constructor
    · rintro ⟨-, draft', member', isChange⟩
      have sameResource := (tidy.tidy draft' (subset member')).within change isChange
      rw [isResource, (tidy.tidy draft' (subset member')).resource] at sameResource
      have same := tidy.unique (subset member) (subset member')
        (isIri.symm.trans (Option.some.inj sameResource))
      exact same ▸ isChange
    · exact fun isChange => ⟨isRow, draft, member, isChange⟩
  rw [ResourceNumbers.draftRows, List.mem_filterMap]
  constructor
  · rintro ⟨numbered, isNumbered, isRow⟩
    rcases List.exists_mem_of_ne_nil _ (documentRow_eq_some isRow).2.2.2 with
      ⟨change, member⟩
    rcases List.mem_filter.mp (List.mem_filter.mp member).1 with ⟨isChange, isIri⟩
    rcases (mem_draftChanges.mp isChange).2 with ⟨draft, isDraft, depends⟩
    have tidyDraft := tidy.tidy draft (subset isDraft)
    have isResource := tidyDraft.within change depends
    rw [beq_iff_eq.mp isIri, tidyDraft.resource] at isResource
    have sameIri := Option.some.inj isResource
    refine ⟨draft, isDraft, ?_⟩
    rw [own isDraft sameIri] at isRow
    rw [ResourceNumbers.documentOf, ← sameIri, find_iri isNumbered, Option.bind_some,
      draftRow, isRow, Option.getD_some]
  · rintro ⟨draft, isDraft, rfl⟩
    rcases ((tidy.tidy draft (subset isDraft)).documentOf_spec
      (subset isDraft)).1 with ⟨numbered, isNumbered, isIri, isRow⟩
    refine ⟨numbered, isNumbered, ?_⟩
    rw [own isDraft isIri]
    exact isRow

/-- Tidy drafts have different keys. -/
theorem TidyDrafts.distinct (tidy : TidyDrafts numbers) :
    s.draftBlobs.Pairwise fun x y =>
      (toLex ∘ numbers.draftKey) x ≠ (toLex ∘ numbers.draftKey) y := by
  have apart : s.draftBlobs.Pairwise fun x y => x.1.resource ≠ y.1.resource := by
    apply List.pairwise_flatMap.mpr
    constructor
    · intro draft _
      apply List.pairwise_map.mpr
      have blobs := (List.pairwise_map.mp tidy.blobs).filter (·.blob == draft.blob)
      apply blobs.imp_of_mem
      intro blob blob' isBlob isBlob' differ
      have same := beq_iff_eq.mp (List.mem_filter.mp isBlob).2
      have same' := beq_iff_eq.mp (List.mem_filter.mp isBlob').2
      exact absurd (same.trans same'.symm) differ
    · apply (List.pairwise_map.mp tidy.resources).imp
      intro draft draft' differ x isBlob y isBlob'
      rcases List.mem_map.mp isBlob with ⟨_, -, rfl⟩
      rcases List.mem_map.mp isBlob' with ⟨_, -, rfl⟩
      exact differ
  apply apart.imp_of_mem
  intro draft draft' isDraft isDraft' differ same
  apply differ
  have keys := (Prod.mk.inj (toLex_inj.mp same)).2
  rcases (tidy.tidy draft isDraft).owned with ⟨numbered, member, isIri, -⟩
  rcases (tidy.tidy draft' isDraft').owned with ⟨numbered', member', isIri', -⟩
  rw [(tidy.tidy draft isDraft).resource, (tidy.tidy draft' isDraft').resource,
    Option.bind_some, Option.bind_some, ResourceNumbers.number,
    ResourceNumbers.number, ← isIri, ← isIri', find_iri member, find_iri member'] at keys
  have sameNumber : numbered.1 = numbered'.1 := WithBot.coe_inj.mp keys
  rw [← isIri, ← isIri', List.inj_on_of_nodup_map numbers.nodup member member' sameNumber]

theorem TidyDrafts.ordered (tidy : TidyDrafts numbers) :
    numbers.allDrafts.Pairwise fun x y =>
      Behind true (toLex (numbers.draftKey x)) (toLex (numbers.draftKey y)) :=
  orderBy_ordered tidy.distinct

theorem mem_allDrafts : draft ∈ numbers.allDrafts ↔ draft ∈ s.draftBlobs := by
  rw [ResourceNumbers.allDrafts, mem_orderBy]

/-- The documents of tidy drafts are ordered as the drafts are. -/
theorem TidyDrafts.documents_ordered (tidy : TidyDrafts numbers)
    (subset : drafts ⊆ s.draftBlobs)
    (ordered : drafts.Pairwise fun x y =>
      Behind true (toLex (numbers.draftKey x)) (toLex (numbers.draftKey y))) :
    (drafts.map numbers.documentOf).Pairwise fun x y =>
      Behind true (toLex x.draftKey) (toLex y.draftKey) := by
  apply List.pairwise_map.mpr
  apply ordered.imp_of_mem
  intro draft draft' member member' behind
  rwa [((tidy.tidy draft (subset member)).documentOf_spec (subset member)).2,
    ((tidy.tidy draft' (subset member')).documentOf_spec (subset member')).2]

theorem draftRows_distinct (numbers : ResourceNumbers s)
    (drafts : List (DraftRow × StructuralBlobRow)) :
    (numbers.draftRows drafts).Pairwise fun x y =>
      (toLex ∘ DocumentRow.draftKey) x ≠ (toLex ∘ DocumentRow.draftKey) y := by
  have apart : numbers.rows.Pairwise fun x y => x.1 ≠ y.1 :=
    List.pairwise_map.mp numbers.nodup
  apply List.Pairwise.filterMap _ _ apart
  intro numbered numbered' differ row isRow row' isRow' same
  apply differ
  rw [← (documentRow_eq_some isRow).2.1, ← (documentRow_eq_some isRow').2.1]
  exact WithBot.coe_inj.mp (Prod.mk.inj (toLex_inj.mp same)).2

/-- The query lists the documents of the next drafts. -/
theorem TidyDrafts.qListAllDrafts_eq (tidy : TidyDrafts numbers)
    (cursor : DraftsCursor) :
    numbers.qListAllDrafts cursor size =
      ((numbers.allDrafts.filter (numbers.isBefore cursor)).take (size + 1)).map
        numbers.documentOf := by
  have notNegative : ¬ ((size : Int) + 1 < 0) := by omega
  have subset_eq : numbers.draftSubset cursor size =
      (numbers.allDrafts.filter (numbers.isBefore cursor)).take (size + 1) := by
    rw [ResourceNumbers.draftSubset, sqlLimit, if_neg notNegative,
      orderBy_filter _ tidy.distinct]
    rfl
  have subset : (numbers.allDrafts.filter (numbers.isBefore cursor)).take (size + 1) ⊆
      s.draftBlobs := fun draft member =>
    mem_allDrafts.mp (List.mem_filter.mp (List.mem_of_mem_take member)).1
  rw [ResourceNumbers.qListAllDrafts, subset_eq]
  apply ordered_unique (orderBy_ordered (draftRows_distinct numbers _))
    (tidy.documents_ordered subset ((tidy.ordered.filter _).sublist
      (List.take_sublist ..)))
  intro row
  rw [mem_orderBy, tidy.mem_draftRows subset, List.mem_map]

/-- A list of the documents of all drafts in order is the one list of them. -/
theorem TidyDrafts.listsDrafts_iff (tidy : TidyDrafts numbers)
    {rows : List DocumentRow} :
    ListsDrafts numbers rows ↔ rows = numbers.allDrafts.map numbers.documentOf := by
  have all : numbers.allDrafts ⊆ s.draftBlobs := fun _ => mem_allDrafts.mp
  have isDocument : ∀ {draft numbered row}, numbered ∈ numbers.rows →
      numbered.2.iri = draft.1.resource → draftRow s draft numbered = some row →
      numbers.documentOf draft = row := by
    intro draft numbered row isNumbered isIri isRow
    rw [ResourceNumbers.documentOf, ← isIri, find_iri isNumbered, Option.bind_some,
      isRow, Option.getD_some]
  constructor
  · intro lists
    apply ordered_unique lists.ordered (tidy.documents_ordered all tidy.ordered)
    intro row
    rw [List.mem_map]
    constructor
    · intro member
      rcases lists.drafts row member with ⟨draft, isDraft, numbered, isNumbered,
        isIri, isRow⟩
      exact ⟨draft, mem_allDrafts.mpr isDraft, isDocument isNumbered isIri isRow⟩
    · rintro ⟨draft, member, rfl⟩
      have isDraft := mem_allDrafts.mp member
      rcases lists.complete draft.1 (mem_draftBlobs.mp isDraft).1 with
        ⟨blob, numbered, isDraft', isNumbered, isIri, row, listed, isRow⟩
      have same : draft = (draft.1, blob) := tidy.unique isDraft isDraft' rfl
      have isDocument' : numbers.documentOf (draft.1, blob) = row :=
        isDocument isNumbered isIri isRow
      rw [same, isDocument']
      exact listed
  · rintro rfl
    constructor
    · exact tidy.documents_ordered all tidy.ordered
    · intro row member
      rcases List.mem_map.mp member with ⟨draft, isDraft, rfl⟩
      rcases ((tidy.tidy draft (all isDraft)).documentOf_spec (all isDraft)).1 with
        ⟨numbered, isNumbered, isIri, isRow⟩
      exact ⟨draft, all isDraft, numbered, isNumbered, isIri, isRow⟩
    · intro draft member
      rcases tidy.indexed draft member with ⟨blob, isRow, same⟩
      have isDraft : (draft, blob) ∈ s.draftBlobs :=
        mem_draftBlobs.mpr ⟨member, isRow, same⟩
      rcases ((tidy.tidy _ isDraft).documentOf_spec isDraft).1 with
        ⟨numbered, isNumbered, isIri, isRow⟩
      exact ⟨blob, numbered, isDraft, isNumbered, isIri, _,
        List.mem_map_of_mem (mem_allDrafts.mpr isDraft), isRow⟩

theorem sqlKey_injective : Function.Injective sqlKey := by
  intro first second same
  cases first <;> cases second
  · rfl
  · cases same
  · cases same
  · exact congrArg some (WithBot.coe_inj.mp same)

/-- The parts of the key of a tidy draft. -/
theorem TidyDraft.exists_key (tidy : TidyDraft numbers draft) :
    ∃ t n, draft.2.ts = some t ∧ numbers.number draft.1.resource = some n ∧
      t < maxInt64 ∧ n < maxInt64 ∧
      numbers.draftKey draft = (sqlKey (some t), sqlKey (some n)) := by
  rcases tidy.dated with ⟨t, isTime, less, -⟩
  rcases tidy.owned with ⟨numbered, member, isIri, -⟩
  have isNumber : numbers.number draft.1.resource = some numbered.1 := by
    rw [ResourceNumbers.number, ← isIri, find_iri member]
    rfl
  refine ⟨t, numbered.1, isTime, isNumber, less, (numbers.bounded _ member).2, ?_⟩
  rw [ResourceNumbers.draftKey, isTime, tidy.resource, Option.bind_some, isNumber]

/-- After the document of a draft the query asks for both parts to be smaller. -/
theorem TidyDrafts.isBefore_iff_below (tidy : TidyDrafts numbers)
    (isDraft : draft ∈ s.draftBlobs) (isDraft' : draft' ∈ s.draftBlobs) :
    numbers.isBefore ⟨(numbers.documentOf draft).updateTime.getD 0,
        (numbers.documentOf draft).resourceID⟩ draft' = true ↔
      Below (numbers.draftKey draft') (numbers.draftKey draft) := by
  rcases (tidy.tidy draft isDraft).exists_key with ⟨t, n, -, -, -, -, key⟩
  rcases (tidy.tidy draft' isDraft').exists_key with
    ⟨t', n', isTime', isNumber', -, -, key'⟩
  have documentKey := ((tidy.tidy draft isDraft).documentOf_spec isDraft).2.trans key
  rcases Prod.mk.inj documentKey with ⟨sameTime, sameNumber⟩
  have isTime : (numbers.documentOf draft).updateTime = some t :=
    sqlKey_injective sameTime
  have isNumber : (numbers.documentOf draft).resourceID = n :=
    WithBot.coe_inj.mp sameNumber
  rw [ResourceNumbers.isBefore, isTime', isNumber', isTime, isNumber, key, key',
    Bool.and_eq_true]
  change decide (t' < t) = true ∧ decide (n' < n) = true ↔
    (t' : WithBot Int) < t ∧ (n' : WithBot Int) < n
  rw [decide_eq_true_iff, decide_eq_true_iff, WithBot.coe_lt_coe, WithBot.coe_lt_coe]

/-- Requests for drafts serve pages. -/
theorem serves_drafts (T : TokenFormat DraftsCursor) (numbers : ResourceNumbers s)
    (positive : 0 < size) (address : Nat) :
    Serves ((numbers.drafts (some T)).pages size address) ""
      (fun token => ∃ cursor, (numbers.drafts (some T)).tokenCursor T token =
        .ok cursor ∧ True)
      size ((numbers.drafts (some T)).selectedBy T size)
      fun row => T.encode ⟨row.updateTime.getD 0, row.resourceID⟩ := by
  have isMe : (numbers.drafts (some T)).me = some T := rfl
  exact Listing.serves isMe positive address (fun _ => True)
    fun _ _ _ _ => trivial

/-- Tidy drafts are listed if and only if they descend. -/
theorem TidyDrafts.listed_iff {T : TokenFormat DraftsCursor} {address : Nat}
    (tidy : TidyDrafts numbers) (positive : 0 < size) :
    (∃ rows, Follows ((numbers.drafts (some T)).pages size address) "" "" rows ∧
        ListsDrafts numbers rows) ↔
      Descends size numbers.draftKey numbers.allDrafts := by
  have keys : ∀ draft ∈ numbers.allDrafts,
      (numbers.documentOf draft).draftKey = numbers.draftKey draft := by
    intro draft member
    have isDraft := mem_allDrafts.mp member
    exact ((tidy.tidy draft isDraft).documentOf_spec isDraft).2
  have follows_iff : Follows ((numbers.drafts (some T)).pages size address) "" ""
      (numbers.allDrafts.map numbers.documentOf) ↔
        Descends size DocumentRow.draftKey
          (numbers.allDrafts.map numbers.documentOf) := by
    apply (serves_drafts T numbers positive address).follows_iff_below
      ⟨_, rfl, trivial⟩ _ (tidy.documents_ordered (fun _ => mem_allDrafts.mp)
        tidy.ordered) _
    · change Begins size (numbers.qListAllDrafts .start size) _
      rw [tidy.qListAllDrafts_eq, List.filter_eq_self.mpr, List.map_take]
      · exact .take size _
      · intro draft member
        rcases (tidy.tidy draft (mem_allDrafts.mp member)).exists_key with
          ⟨t, n, isTime, isNumber, less, less', -⟩
        rw [ResourceNumbers.isBefore, isTime, isNumber, Bool.and_eq_true]
        exact ⟨decide_eq_true less, decide_eq_true less'⟩
    · intro row member
      rcases List.mem_map.mp member with ⟨draft, isDraft, rfl⟩
      rw [selectedBy_encode]
      change Begins size (numbers.qListAllDrafts _ size) _
      rw [tidy.qListAllDrafts_eq, List.filter_map, List.map_take]
      have same : numbers.allDrafts.filter (numbers.isBefore
          ⟨(numbers.documentOf draft).updateTime.getD 0,
            (numbers.documentOf draft).resourceID⟩) =
          numbers.allDrafts.filter ((fun other : DocumentRow =>
            decide (Below other.draftKey (numbers.documentOf draft).draftKey)) ∘
              numbers.documentOf) := by
        apply List.filter_congr
        intro other isOther
        rw [Bool.eq_iff_iff, Function.comp_apply, decide_eq_true_iff, keys other isOther,
          keys draft isDraft]
        exact tidy.isBefore_iff_below (mem_allDrafts.mp isDraft)
          (mem_allDrafts.mp isOther)
      rw [same]
      exact .take size _
  rw [← descends_map_iff keys, ← follows_iff]
  constructor
  · rintro ⟨rows, followed, lists⟩
    exact tidy.listsDrafts_iff.mp lists ▸ followed
  · exact fun followed => ⟨_, followed, tidy.listsDrafts_iff.mpr rfl⟩

end Drafts

/-! ## Both listings -/

/--
Following the page tokens from the empty one lists every publication once and in
order if and only if the publications have an update time and those on each page
are below the last one of the page before, in update time and IRI.  For tidy drafts
the same holds, in time and number of the resource.
-/
theorem documents_listed_iff {s : Store Data} (numbers : ResourceNumbers s)
    (T : TokenFormat PublicationsCursor) (T' : TokenFormat DraftsCursor)
    {pageSize : Int} (positive : 1 ≤ pageSize) (address : Nat) :
    (∀ trusted, (∃ rows,
        Follows ((numbers.publications (some T) trusted).pages pageSize address)
          "" "" rows ∧ ListsPublications numbers trusted rows) ↔
      Dated numbers trusted ∧ Descends pageSize.toNat DocumentRow.publicationKey
        (numbers.allPublications trusted)) ∧
    (TidyDrafts numbers →
      ((∃ rows, Follows ((numbers.drafts (some T')).pages pageSize address) "" ""
          rows ∧ ListsDrafts numbers rows) ↔
        Descends pageSize.toNat numbers.draftKey numbers.allDrafts)) := by
  obtain ⟨size, rfl⟩ : ∃ size : Nat, pageSize = size :=
    ⟨pageSize.toNat, (Int.toNat_of_nonneg (by omega)).symm⟩
  have isPositive : 0 < size := by omega
  rw [Int.toNat_natCast]
  constructor
  · exact fun trusted => publications_listed_iff isPositive
  · exact fun tidy => tidy.listed_iff isPositive

section Samples

/-- A document of an account. -/
def sampleResource (iri : String) : ResourceRow := ⟨iri, some [1], some 0⟩

/-- A change of a document at this time. -/
def sampleChange (blob iri : String) (ts : Int) : StructuralBlobRow :=
  ⟨blob, "Change", some ts, some [1], some iri, some iri⟩

/-- Two documents; the one with the greater IRI is updated last and has a draft. -/
def descendingStore : Store Unit :=
  { (Store.empty : Store Unit) with
    structuralBlobs := [sampleChange "one" "hm://d/a" 1,
      sampleChange "two" "hm://d/b" 2, sampleChange "three" "hm://d/b" 3]
    blobLinks := [⟨"three", "change/dep", "two"⟩]
    resources := [sampleResource "hm://d/a", sampleResource "hm://d/b"]
    drafts := [⟨"hm://d/b", "three"⟩] }

/-- The document with the greater IRI has the greater number. -/
def descendingNumbers : ResourceNumbers descendingStore where
  rows := [(1, sampleResource "hm://d/a"), (2, sampleResource "hm://d/b")]
  rows_eq := rfl
  nodup := by decide
  iris_nodup := by decide
  bounded := by decide

/-- A token format that writes this cursor with the given text. -/
def sampleTokenFormat {γ : Type} [Encodable γ] [DecidableEq γ] (known : γ) :
    TokenFormat γ :=
  (TokenFormat.counted γ).withText known "bm9uY2U"
    (TokenFormat.counted_ne γ (by decide)) (by decide)

/-- The draft depends on the published change of its document. -/
theorem tidy_descendingNumbers : TidyDrafts descendingNumbers where
  blobs := by decide
  resources := by decide
  indexed := by decide
  tidy := by
    intro draft isDraft
    have isDraft' : draft ∈ [(⟨"hm://d/b", "three"⟩,
        sampleChange "three" "hm://d/b" 3)] := isDraft
    rcases List.mem_singleton.mp isDraft' with rfl
    constructor
    · rfl
    · exact ⟨(2, sampleResource "hm://d/b"), by decide, rfl, rfl⟩
    · rfl
    · exact ⟨3, rfl, by decide, by decide⟩
    · decide

theorem documents_listed_descendingNumbers :
    (∃ rows, Follows ((descendingNumbers.publications
        (some (sampleTokenFormat ⟨2, "hm://d/b"⟩)) none).pages 1 0) "" "" rows ∧
      ListsPublications descendingNumbers none rows) ∧
    ∃ rows, Follows ((descendingNumbers.drafts
        (some (sampleTokenFormat ⟨3, 2⟩))).pages 1 0) "" "" rows ∧
      ListsDrafts descendingNumbers rows := by
  have listed := documents_listed_iff descendingNumbers
    (sampleTokenFormat ⟨2, "hm://d/b"⟩) (sampleTokenFormat ⟨3, 2⟩) le_rfl 0
  constructor
  · apply (listed.1 none).mpr
    constructor
    · intro numbered member _
      have member' : numbered ∈ [(1, sampleResource "hm://d/a"),
        (2, sampleResource "hm://d/b")] := member
      rcases List.mem_cons.mp member' with rfl | member'
      · exact ⟨1, by decide, by decide⟩
      · rcases List.mem_singleton.mp member' with rfl
        exact ⟨2, by decide, by decide⟩
    · exact descends_of_pairwise (by decide)
  · exact (listed.2 tidy_descendingNumbers).mpr (descends_of_pairwise (by decide))

/-- Two documents; the one with the smaller IRI is updated last. -/
def risingStore : Store Unit :=
  { (Store.empty : Store Unit) with
    structuralBlobs := [sampleChange "one" "hm://d/a" 2, sampleChange "two" "hm://d/b" 1]
    resources := [sampleResource "hm://d/a", sampleResource "hm://d/b"] }

/-- The document with the greater IRI has the greater number. -/
def risingNumbers : ResourceNumbers risingStore where
  rows := [(1, sampleResource "hm://d/a"), (2, sampleResource "hm://d/b")]
  rows_eq := rfl
  nodup := by decide
  iris_nodup := by decide
  bounded := by decide

/-- The second page asks for an IRI smaller than that of the first document. -/
theorem second_publication_not_listed :
    ¬ ∃ rows, Follows ((risingNumbers.publications
        (some (sampleTokenFormat ⟨2, "hm://d/a"⟩)) none).pages 1 0) "" "" rows ∧
      ListsPublications risingNumbers none rows := by
  rintro ⟨rows, followed, lists⟩
  have first : (risingNumbers.publications
      (some (sampleTokenFormat ⟨2, "hm://d/a"⟩)) none).pages 1 0 "" =
        .ok ((risingNumbers.allPublications none).take 1, "bm9uY2U") := by rfl
  have second : (risingNumbers.publications
      (some (sampleTokenFormat ⟨2, "hm://d/a"⟩)) none).pages 1 0 "bm9uY2U" =
        .ok ([], "") := by rfl
  have listed := followed.unique (.more first (by decide) (.last second))
  rcases lists.complete (2, sampleResource "hm://d/b") (by decide) (by decide)
    with ⟨row, member, isRow⟩
  rw [listed] at member
  have different : ∀ row ∈ (risingNumbers.allPublications none).take 1 ++ [],
      publicationRow risingStore none (2, sampleResource "hm://d/b") ≠ some row := by
    decide
  exact different row member isRow

end Samples

end Mintter.Hyper
