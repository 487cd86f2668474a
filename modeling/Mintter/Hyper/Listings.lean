import Mintter.Foundation.Closure
import Mintter.Foundation.Pages
import Mintter.Hyper.Loading

/-!
# Listing publications and drafts

`ListPublications` lists the documents whose owner published changes, and
`ListDrafts` those that have a draft, the last updated first.  The order is by
the update time and then by the IRI or the number of the resource, but the query
for the next page asks for both of them to be smaller than those of the last
document.

`publications_listed_iff` says when following the page tokens lists every
publication once and in order: when those on each page have a smaller update time
and a smaller IRI than the last one of the page before.
-/

namespace Mintter.Hyper

open Mintter.Foundation

variable {Data : Type}

/-- The numbers of the resources, which their table gives them; IRIs are unique. -/
structure ResourceNumbers (s : Store Data) where
  rows : List (Int × ResourceRow)
  rows_eq : rows.map Prod.snd = s.resources
  nodup : (rows.map Prod.fst).Nodup
  iris_nodup : (rows.map (·.2.iri)).Nodup
  bounded : ∀ row ∈ rows, 0 < row.1 ∧ row.1 < maxInt64

/-- Values in their order, behind the missing one. -/
def sqlKey : Option Int → WithBot Int
  | none => ⊥
  | some n => n

/-- A row of the queries for documents. -/
structure DocumentRow where
  iri : String
  createTime : Option Int
  updateTime : Option Int
  author : Principal
  editors : List Principal
  title : Option String
  resourceID : Int
deriving DecidableEq, Inhabited

/-! ## Documents from their changes -/

/-- The greatest time. -/
def updateTime (changes : List StructuralBlobRow) : Option Int :=
  (changes.filterMap (·.ts)).max?

/-- The title with the greatest time; the greatest author breaks a tie. -/
def currentTitle (changes : List StructuralBlobRow) : Option String :=
  ((orderBy true (fun row : StructuralBlobRow =>
      toLex (sqlKey row.ts, (row.author.getD []).map UInt8.toNat))
    (changes.filter (·.title.isSome))).head?).bind (·.title)

/-- The row that the joins and the grouping make of the changes of a resource. -/
def documentRow (numbered : Int × ResourceRow) (changes : List StructuralBlobRow) :
    Option DocumentRow := do
  let owner ← numbered.2.owner
  let authored := changes.filter (·.author.isSome)
  if authored = [] then none
  else some {
    iri := numbered.2.iri
    createTime := numbered.2.createTime
    updateTime := updateTime authored
    author := owner
    editors := (authored.filterMap (·.author)).dedup
    title := currentTitle authored
    resourceID := numbered.1 }

section Queries

variable (s : Store Data)

/-- The dependencies between changes whose target is selected. -/
def selectedDeps (selected : StructuralBlobRow → Bool) : List (String × String) :=
  (changeDeps s).filter fun link =>
    s.structuralBlobs.any fun row => row.blob == link.2 && selected row

/-- The changes of the owner that are no drafts. -/
def publishedChanges (resource : ResourceRow) : List StructuralBlobRow :=
  s.structuralBlobs.filter fun row =>
    row.resource == some resource.iri && resource.owner.isSome &&
      row.author == resource.owner && !s.drafts.any (·.blob == row.blob)

/-- The published changes of the owner and what they depend on in the resource. -/
def publicationChanges (resource : ResourceRow) : List StructuralBlobRow :=
  let selected := fun row : StructuralBlobRow => row.resource == some resource.iri
  s.structuralBlobs.filter fun row => selected row &&
    (Foundation.closure (selectedDeps s selected)
      ((publishedChanges s resource).map (·.blob))).contains row.blob

/-- A document of a trusted account, if only those are asked for. -/
def isListed (trusted : Option (List Principal)) (resource : ResourceRow) : Bool :=
  hasPrefix resource.iri "hm://d/" &&
    trusted.all fun accounts => resource.owner.any accounts.contains

/-- The row of a resource among the publications. -/
def publicationRow (trusted : Option (List Principal))
    (numbered : Int × ResourceRow) : Option DocumentRow :=
  if isListed trusted numbered.2 then
    documentRow numbered (publicationChanges s numbered.2)
  else none

/-- Where a page of publications ends. -/
structure PublicationsCursor where
  updateTime : Int
  iri : String
deriving DecidableEq

instance : Encodable PublicationsCursor :=
  Encodable.ofLeftInjection
    (fun cursor => (cursor.updateTime, cursor.iri.toList.map Char.toNat))
    (fun code => some ⟨code.1, String.ofList (code.2.map Char.ofNat)⟩)
    fun cursor => by simp [Function.comp_def, String.ofList_toList]

/-- The cursor in front of all publications. -/
def PublicationsCursor.start : PublicationsCursor :=
  ⟨maxInt64, String.singleton '\uFFFF'⟩

/-- What the query asks of a document after the cursor. -/
def PublicationsCursor.isBefore (cursor : PublicationsCursor) (row : DocumentRow) :
    Bool :=
  row.updateTime.any (· < cursor.updateTime) && row.iri < cursor.iri

/-- By what publications are ordered. -/
def DocumentRow.publicationKey (row : DocumentRow) : WithBot Int × String :=
  (sqlKey row.updateTime, row.iri)

variable {s} (numbers : ResourceNumbers s)

/-- The documents that are published, in no order. -/
def ResourceNumbers.publicationRows (trusted : Option (List Principal)) :
    List DocumentRow :=
  numbers.rows.filterMap (publicationRow s trusted)

/-- `qListAllPublications`, and `qListTrustedPublications` for trusted accounts. -/
def ResourceNumbers.qListPublications (trusted : Option (List Principal))
    (cursor : PublicationsCursor) (pageSize : Int) : List DocumentRow :=
  sqlLimit (pageSize + 1) (orderBy true (toLex ∘ DocumentRow.publicationKey)
    ((numbers.publicationRows trusted).filter cursor.isBefore))

/-- Where a page of drafts ends. -/
structure DraftsCursor where
  ts : Int
  resource : Int
deriving DecidableEq, Encodable

/-- The cursor in front of all drafts. -/
def DraftsCursor.start : DraftsCursor := ⟨maxInt64, maxInt64⟩

/-- The number of a resource. -/
def ResourceNumbers.number (iri : String) : Option Int :=
  (numbers.rows.find? (·.2.iri == iri)).map (·.1)

/-- The drafts with their blobs. -/
def Store.draftBlobs (s : Store Data) : List (DraftRow × StructuralBlobRow) :=
  s.drafts.flatMap fun draft =>
    (s.structuralBlobs.filter (·.blob == draft.blob)).map (draft, ·)

/-- By what drafts are ordered. -/
def ResourceNumbers.draftKey (draft : DraftRow × StructuralBlobRow) :
    WithBot Int × WithBot Int :=
  (sqlKey draft.2.ts, sqlKey (draft.2.resource.bind numbers.number))

/-- Whether the draft is behind the cursor, by time and by number. -/
def ResourceNumbers.isBefore (cursor : DraftsCursor)
    (draft : DraftRow × StructuralBlobRow) : Bool :=
  draft.2.ts.any (· < cursor.ts) &&
    (numbers.number draft.1.resource).any (· < cursor.resource)

/-- The drafts of a page. -/
def ResourceNumbers.draftSubset (cursor : DraftsCursor) (pageSize : Int) :
    List (DraftRow × StructuralBlobRow) :=
  sqlLimit (pageSize + 1) (orderBy true (toLex ∘ numbers.draftKey)
    (s.draftBlobs.filter (numbers.isBefore cursor)))

/-- The drafts and everything they depend on. -/
def draftChanges (s : Store Data) (drafts : List (DraftRow × StructuralBlobRow)) :
    List StructuralBlobRow :=
  s.structuralBlobs.filter fun row =>
    (Foundation.closure (selectedDeps s fun _ => true) (drafts.map (·.2.blob))).contains row.blob

/-- By what the rows of drafts are ordered. -/
def DocumentRow.draftKey (row : DocumentRow) : WithBot Int × WithBot Int :=
  (sqlKey row.updateTime, row.resourceID)

/-- The documents that the drafts and their dependencies belong to. -/
def ResourceNumbers.draftRows (drafts : List (DraftRow × StructuralBlobRow)) :
    List DocumentRow :=
  numbers.rows.filterMap fun numbered => documentRow numbered
    ((draftChanges s drafts).filter (·.resource == some numbered.2.iri))

/-- The documents of the drafts behind a cursor. -/
def ResourceNumbers.qListAllDrafts (cursor : DraftsCursor) (pageSize : Int) :
    List DocumentRow :=
  orderBy true (toLex ∘ DocumentRow.draftKey)
    (numbers.draftRows (numbers.draftSubset cursor pageSize))

end Queries

/-! ## The requests -/

/-- A bad page size is reported by the address of the field. -/
def validatePageSize (address : Nat) (pageSize : Int) : Except String Int :=
  if pageSize < 0 then
    .error s!"bad page size {address}: must be a positive number"
  else .ok (if pageSize = 0 then 30 else pageSize)

/-- A request for a page. -/
structure ListRequest where
  pageSize : Int
  pageSizeAddress : Nat
  pageToken : String

section Requests

variable {γ : Type}

/-- How the documents of a kind are listed. -/
structure Listing (γ : Type) where
  /-- The tokens of the device, once the account is initialized. -/
  me : Option (TokenFormat γ)
  zero : γ
  start : γ
  query : γ → Int → List DocumentRow
  cursorOf : DocumentRow → γ

/-- The cursor that a request starts from. -/
def ListRequest.cursor (req : ListRequest) (T : TokenFormat γ) (start : γ) :
    Except String γ :=
  if req.pageToken = "" then .ok start else T.decode req.pageToken

/--
The rows of a page and the token of the next one.  The random bytes that
encryption draws for a cursor are taken to be part of the token format; a listing
that ends encodes no cursor twice.
-/
def Listing.listRows (listing : Listing γ) (req : ListRequest) :
    Except String (List DocumentRow × String) :=
  match listing.me with
  | none => .error "account is not initialized yet"
  | some T => do
      let pageSize ← validatePageSize req.pageSizeAddress req.pageSize
      let cursor ← req.cursor T listing.start
      (listing.query cursor pageSize).foldlM
        (collectRow pageSize (fun _ => .ok ()) fun last =>
          T.encode (last.elim listing.zero listing.cursorOf)) ([], "")

/-- A document as it is listed. -/
structure ListedDocument where
  id : String
  title : String
  author : String
  editors : List String
  /-- In seconds. -/
  createTime : Int
  /-- In microseconds. -/
  updateTime : Int
  publishTime : Option Int

variable (F : Formats Data)

/-- A draft as it is listed. -/
def DocumentRow.draft (row : DocumentRow) : ListedDocument where
  id := row.iri
  title := row.title.getD ""
  author := F.principalString row.author
  editors := row.editors.map F.principalString
  createTime := row.createTime.getD 0
  updateTime := row.updateTime.getD 0
  publishTime := none

/-- A publication as it is listed, with its time of publication. -/
def DocumentRow.publication (row : DocumentRow) : ListedDocument :=
  { row.draft F with publishTime := some (row.updateTime.getD 0) }

variable {s : Store Data} (numbers : ResourceNumbers s)

/-- The listing of the publications, all or trusted ones. -/
def ResourceNumbers.publications (me : Option (TokenFormat PublicationsCursor))
    (trusted : Option (List Principal)) : Listing PublicationsCursor where
  me := me
  zero := ⟨0, ""⟩
  start := .start
  query := numbers.qListPublications trusted
  cursorOf row := ⟨row.updateTime.getD 0, row.iri⟩

/-- The listing of the drafts. -/
def ResourceNumbers.drafts (me : Option (TokenFormat DraftsCursor)) :
    Listing DraftsCursor where
  me := me
  zero := ⟨0, 0⟩
  start := .start
  query := numbers.qListAllDrafts
  cursorOf row := ⟨row.updateTime.getD 0, row.resourceID⟩

/-- `ListPublications`; the trusted accounts are those of the store. -/
def ResourceNumbers.listPublications (me : Option (TokenFormat PublicationsCursor))
    (trustedAccounts : List Principal) (trustedOnly : Bool) (req : ListRequest) :
    Except String (List ListedDocument × String) := do
  let trusted := if trustedOnly then some trustedAccounts else none
  let (rows, nextPageToken) ← (numbers.publications me trusted).listRows req
  .ok (rows.map (·.publication F), nextPageToken)

/-- A page of drafts and the token of the next one. -/
def ResourceNumbers.listDrafts (me : Option (TokenFormat DraftsCursor))
    (req : ListRequest) : Except String (List ListedDocument × String) := do
  let (rows, nextPageToken) ← (numbers.drafts me).listRows req
  .ok (rows.map (·.draft F), nextPageToken)

end Requests

/-! ## Following the tokens -/

section Follow

variable {γ : Type} {listing : Listing γ} {T : TokenFormat γ} {address size : Nat}

/-- The answers to requests for a listing, by page token. -/
def Listing.pages (listing : Listing γ) (pageSize : Int) (address : Nat)
    (token : String) : Except String (List DocumentRow × String) :=
  listing.listRows ⟨pageSize, address, token⟩

/-- The cursor that a page token stands for. -/
def Listing.tokenCursor (listing : Listing γ) (T : TokenFormat γ) (token : String) :
    Except String γ :=
  (ListRequest.mk 0 0 token).cursor T listing.start

/-- The rows that a page token selects. -/
def Listing.selectedBy (listing : Listing γ) (T : TokenFormat γ) (size : Nat)
    (token : String) : List DocumentRow :=
  match listing.tokenCursor T token with
  | .ok cursor => listing.query cursor size
  | .error _ => []

theorem tokenCursor_token (cursor : γ) :
    listing.tokenCursor T (T.encode cursor) = .ok cursor := by
  rw [Listing.tokenCursor, ListRequest.cursor, if_neg (T.encode_ne_empty cursor),
    T.decode_encode]

theorem selectedBy_encode (cursor : γ) :
    listing.selectedBy T size (T.encode cursor) = listing.query cursor size := by
  rw [Listing.selectedBy, tokenCursor_token]

/-- A listing serves pages of the rows that its query selects. -/
theorem Listing.serves (isMe : listing.me = some T) (positive : 0 < size)
    (address : Nat) (bounded : γ → Prop)
    (stays : ∀ cursor, bounded cursor → ∀ row ∈ listing.query cursor size,
      bounded (listing.cursorOf row)) :
    Serves (listing.pages size address) ""
      (fun token => ∃ cursor, listing.tokenCursor T token = .ok cursor ∧
        bounded cursor)
      size (listing.selectedBy T size) fun row => T.encode (listing.cursorOf row) := by
  constructor
  · exact positive
  · rintro token ⟨cursor, decoded, -⟩
    have notNegative : ¬ ((size : Int) < 0) := by omega
    have notZero : (size : Int) ≠ 0 := by omega
    have decoded' : (ListRequest.mk size address token).cursor T listing.start =
        .ok cursor := decoded
    rw [Listing.pages, Listing.listRows, isMe, Listing.selectedBy, decoded]
    simp only [validatePageSize, notNegative, notZero, ↓reduceIte]
    change (do
      let cursor ← (ListRequest.mk size address token).cursor T listing.start
      (listing.query cursor size).foldlM _ _) = _
    rw [decoded']
    exact collect_rows positive fun _ _ => rfl
  · intro token _ row _
    exact T.encode_ne_empty _
  · rintro token ⟨cursor, decoded, isBounded⟩ row member
    rw [Listing.selectedBy, decoded] at member
    exact ⟨_, tokenCursor_token _, stays cursor isBounded row member⟩

end Follow

/-! ## Publications -/

section Publications

variable {s : Store Data} {numbers : ResourceNumbers s}
variable {trusted : Option (List Principal)} {numbered : Int × ResourceRow}
variable {row : DocumentRow} {size : Nat}

/-- The owner published changes of the document, which is one of those asked for. -/
def isPublished (s : Store Data) (trusted : Option (List Principal))
    (resource : ResourceRow) : Prop :=
  isListed trusted resource = true ∧ publishedChanges s resource ≠ []

instance (s : Store Data) (trusted : Option (List Principal))
    (resource : ResourceRow) : Decidable (isPublished s trusted resource) :=
  inferInstanceAs (Decidable (_ ∧ _))

/-- The update time of a document. -/
def lastUpdate (s : Store Data) (resource : ResourceRow) : Option Int :=
  updateTime ((publicationChanges s resource).filter (·.author.isSome))

/-- The documents in the order of the listing. -/
def ResourceNumbers.allPublications (numbers : ResourceNumbers s)
    (trusted : Option (List Principal)) : List DocumentRow :=
  orderBy true (toLex ∘ DocumentRow.publicationKey) (numbers.publicationRows trusted)

/-- The rows list every published document once and in order. -/
structure ListsPublications (numbers : ResourceNumbers s)
    (trusted : Option (List Principal)) (rows : List DocumentRow) : Prop where
  ordered : rows.Pairwise fun x y =>
    Behind true (toLex x.publicationKey) (toLex y.publicationKey)
  published : ∀ row ∈ rows, ∃ numbered ∈ numbers.rows,
    publicationRow s trusted numbered = some row
  complete : ∀ numbered ∈ numbers.rows, isPublished s trusted numbered.2 →
    ∃ row ∈ rows, publicationRow s trusted numbered = some row

/-- The published documents have an update time, which is not the greatest number. -/
def Dated (numbers : ResourceNumbers s) (trusted : Option (List Principal)) : Prop :=
  ∀ numbered ∈ numbers.rows, isPublished s trusted numbered.2 →
    ∃ t, lastUpdate s numbered.2 = some t ∧ t < maxInt64

/-- What a row of a document says about its resource. -/
theorem documentRow_eq_some {changes : List StructuralBlobRow}
    (isRow : documentRow numbered changes = some row) :
    row.iri = numbered.2.iri ∧ row.resourceID = numbered.1 ∧
      row.updateTime = updateTime (changes.filter (·.author.isSome)) ∧
      changes.filter (·.author.isSome) ≠ [] := by
  simp only [documentRow, Option.bind_eq_bind, Option.bind_eq_some_iff] at isRow
  rcases isRow with ⟨owner, -, shape⟩
  split at shape
  · cases shape
  · next nonempty =>
      cases Option.some.inj shape
      exact ⟨rfl, rfl, rfl, nonempty⟩

theorem exists_documentRow {changes : List StructuralBlobRow}
    (owned : numbered.2.owner.isSome = true)
    (nonempty : changes.filter (·.author.isSome) ≠ []) :
    ∃ row, documentRow numbered changes = some row := by
  rcases Option.isSome_iff_exists.mp owned with ⟨owner, isOwner⟩
  rw [documentRow, isOwner]
  simp only [Option.bind_eq_bind, Option.bind_some, nonempty, ↓reduceIte]
  exact ⟨_, rfl⟩

theorem publicationRow_eq_some (isRow : publicationRow s trusted numbered = some row) :
    isListed trusted numbered.2 = true ∧
      documentRow numbered (publicationChanges s numbered.2) = some row := by
  rw [publicationRow] at isRow
  split at isRow
  · next listed => exact ⟨listed, isRow⟩
  · cases isRow

/-- Only published documents have a row. -/
theorem isPublished_of_row (isRow : publicationRow s trusted numbered = some row) :
    isPublished s trusted numbered.2 := by
  rcases publicationRow_eq_some isRow with ⟨listed, isRow⟩
  constructor
  · exact listed
  · intro none
    apply (documentRow_eq_some isRow).2.2.2
    rw [List.filter_eq_nil_iff]
    intro change member
    have inClosure := (List.mem_filter.mp member).2
    rw [Bool.and_eq_true, List.contains_iff_mem, none, Foundation.mem_closure_iff] at inClosure
    rcases inClosure.2 with ⟨_, isStart, -⟩
    cases isStart

/-- Every published document has a row. -/
theorem exists_publicationRow (published : isPublished s trusted numbered.2) :
    ∃ row, publicationRow s trusted numbered = some row := by
  rcases List.exists_mem_of_ne_nil _ published.2 with ⟨change, member⟩
  rcases List.mem_filter.mp member with ⟨isRow, isChange⟩
  simp only [Bool.and_eq_true, beq_iff_eq] at isChange
  rcases isChange with ⟨⟨⟨isResource, owned⟩, isAuthor⟩, -⟩
  rw [publicationRow, if_pos published.1]
  apply exists_documentRow owned
  apply List.ne_nil_of_mem
  apply List.mem_filter.mpr
  constructor
  · apply List.mem_filter.mpr
    refine ⟨isRow, ?_⟩
    rw [Bool.and_eq_true, beq_iff_eq, List.contains_iff_mem]
    exact ⟨isResource, Foundation.subset_closure (List.mem_map_of_mem member)⟩
  · exact isAuthor ▸ owned

theorem mem_allPublications : row ∈ numbers.allPublications trusted ↔
    ∃ numbered ∈ numbers.rows, publicationRow s trusted numbered = some row := by
  rw [ResourceNumbers.allPublications, mem_orderBy, ResourceNumbers.publicationRows,
    List.mem_filterMap]

theorem publicationRows_distinct (numbers : ResourceNumbers s)
    (trusted : Option (List Principal)) :
    (numbers.publicationRows trusted).Pairwise fun x y =>
      (toLex ∘ DocumentRow.publicationKey) x ≠
        (toLex ∘ DocumentRow.publicationKey) y := by
  have apart : numbers.rows.Pairwise fun x y => x.2.iri ≠ y.2.iri :=
    List.pairwise_map.mp numbers.iris_nodup
  apply List.Pairwise.filterMap _ _ apart
  intro numbered numbered' differ row isRow row' isRow' same
  apply differ
  rw [← (documentRow_eq_some (publicationRow_eq_some isRow).2).1,
    ← (documentRow_eq_some (publicationRow_eq_some isRow').2).1]
  exact (Prod.mk.inj (toLex_inj.mp same)).2

theorem allPublications_ordered (numbers : ResourceNumbers s)
    (trusted : Option (List Principal)) :
    (numbers.allPublications trusted).Pairwise fun x y =>
      Behind true (toLex x.publicationKey) (toLex y.publicationKey) :=
  orderBy_ordered (publicationRows_distinct numbers trusted)

/-- A list of all publications in order is the one list of them. -/
theorem listsPublications_iff {rows : List DocumentRow} :
    ListsPublications numbers trusted rows ↔
      rows = numbers.allPublications trusted := by
  constructor
  · intro lists
    apply ordered_unique lists.ordered (allPublications_ordered numbers trusted)
    intro row
    rw [mem_allPublications]
    constructor
    · exact lists.published row
    · rintro ⟨numbered, member, isRow⟩
      rcases lists.complete numbered member (isPublished_of_row isRow) with
        ⟨other, isListed, isRow'⟩
      exact Option.some.inj (isRow.symm.trans isRow') ▸ isListed
  · rintro rfl
    constructor
    · exact allPublications_ordered numbers trusted
    · exact fun row member => mem_allPublications.mp member
    · intro numbered member published
      rcases exists_publicationRow published with ⟨row, isRow⟩
      exact ⟨row, mem_allPublications.mpr ⟨numbered, member, isRow⟩, isRow⟩

/-- The query selects among all publications and keeps one row more than a page. -/
theorem qListPublications_eq (cursor : PublicationsCursor) :
    numbers.qListPublications trusted cursor size =
      ((numbers.allPublications trusted).filter cursor.isBefore).take (size + 1) := by
  have notNegative : ¬ ((size : Int) + 1 < 0) := by omega
  rw [ResourceNumbers.qListPublications, sqlLimit, if_neg notNegative,
    orderBy_filter _ (publicationRows_distinct numbers trusted)]
  rfl

theorem dated_iff : Dated numbers trusted ↔
    ∀ row ∈ numbers.allPublications trusted,
      ∃ t, row.updateTime = some t ∧ t < maxInt64 := by
  constructor
  · intro dated row member
    rcases mem_allPublications.mp member with ⟨numbered, isNumbered, isRow⟩
    rw [(documentRow_eq_some (publicationRow_eq_some isRow).2).2.2.1]
    exact dated numbered isNumbered (isPublished_of_row isRow)
  · intro dated numbered member published
    rcases exists_publicationRow published with ⟨row, isRow⟩
    rw [lastUpdate,
      ← (documentRow_eq_some (publicationRow_eq_some isRow).2).2.2.1]
    exact dated row (mem_allPublications.mpr ⟨numbered, member, isRow⟩)

/-- The identifiers of documents are smaller than the greatest text. -/
theorem iri_lt_start (member : row ∈ numbers.allPublications trusted) :
    row.iri < PublicationsCursor.start.iri := by
  rcases mem_allPublications.mp member with ⟨numbered, -, isRow⟩
  rcases publicationRow_eq_some isRow with ⟨listed, isRow⟩
  rw [(documentRow_eq_some isRow).1]
  have isDocument : hasPrefix numbered.2.iri "hm://d/" = true :=
    (Bool.and_eq_true _ _ ▸ listed).1
  rw [hasPrefix, List.isPrefixOf_iff_prefix] at isDocument
  rcases isDocument with ⟨rest, isIri⟩
  rw [String.lt_iff_toList_lt, ← isIri]
  exact List.Lex.rel (by decide)

/-- For dated documents the query asks for both parts of the key to be smaller. -/
theorem isBefore_iff_below {other : DocumentRow} {time time' : Int}
    (isTime : row.updateTime = some time) (isTime' : other.updateTime = some time') :
    (PublicationsCursor.mk (row.updateTime.getD 0) row.iri).isBefore other = true ↔
      Below other.publicationKey row.publicationKey := by
  rw [PublicationsCursor.isBefore, Below, DocumentRow.publicationKey,
    DocumentRow.publicationKey, isTime, isTime', Bool.and_eq_true, decide_eq_true_iff]
  apply and_congr_left'
  change decide (time' < time) = true ↔ (time' : WithBot Int) < time
  rw [decide_eq_true_iff, WithBot.coe_lt_coe]

/-- The documents that the query selects have a smaller time than the cursor. -/
theorem dated_of_query {cursor : PublicationsCursor}
    (member : row ∈ numbers.qListPublications trusted cursor size) :
    ∃ t, row.updateTime = some t ∧ t < cursor.updateTime := by
  rw [qListPublications_eq] at member
  have isBefore := (List.mem_filter.mp (List.mem_of_mem_take member)).2
  rw [PublicationsCursor.isBefore, Bool.and_eq_true] at isBefore
  cases isTime : row.updateTime with
  | none =>
      rw [isTime] at isBefore
      exact absurd isBefore.1 Bool.false_ne_true
  | some t =>
      rw [isTime] at isBefore
      exact ⟨t, rfl, of_decide_eq_true isBefore.1⟩

/-- Requests for publications serve pages. -/
theorem serves_publications (T : TokenFormat PublicationsCursor)
    (numbers : ResourceNumbers s) (trusted : Option (List Principal))
    (positive : 0 < size) (address : Nat) :
    Serves ((numbers.publications (some T) trusted).pages size address) ""
      (fun token => ∃ cursor, (numbers.publications (some T) trusted).tokenCursor T
        token = .ok cursor ∧ cursor.updateTime ≤ maxInt64)
      size ((numbers.publications (some T) trusted).selectedBy T size)
      fun row => T.encode ⟨row.updateTime.getD 0, row.iri⟩ := by
  have isMe : (numbers.publications (some T) trusted).me = some T := rfl
  apply Listing.serves isMe positive address fun cursor => cursor.updateTime ≤ maxInt64
  intro cursor bounded row member
  rcases dated_of_query member with ⟨t, isTime, less⟩
  change row.updateTime.getD 0 ≤ maxInt64
  rw [isTime, Option.getD_some]
  exact less.le.trans bounded

/-- Documents that are listed have an update time. -/
theorem dated_of_follows {T : TokenFormat PublicationsCursor} {address : Nat}
    (positive : 0 < size)
    (followed : Follows ((numbers.publications (some T) trusted).pages size address)
      "" "" (numbers.allPublications trusted)) :
    Dated numbers trusted := by
  apply dated_iff.mpr
  refine (serves_publications T numbers trusted positive address).all_rows
    (fun row => ∃ t, row.updateTime = some t ∧ t < maxInt64) ?_
    ⟨_, rfl, le_rfl⟩ followed
  rintro token ⟨cursor, decoded, bounded⟩ row member
  rw [Listing.selectedBy, decoded] at member
  rcases dated_of_query member with ⟨t, isTime, less⟩
  exact ⟨t, isTime, less.trans_le bounded⟩

/-- When all documents are dated, they are listed if and only if they descend. -/
theorem publications_follow_iff {T : TokenFormat PublicationsCursor} {address : Nat}
    (positive : 0 < size) (dated : Dated numbers trusted) :
    Follows ((numbers.publications (some T) trusted).pages size address) "" ""
        (numbers.allPublications trusted) ↔
      Descends size DocumentRow.publicationKey (numbers.allPublications trusted) := by
  have isDated := dated_iff.mp dated
  apply (serves_publications T numbers trusted positive address).follows_iff_below
    ⟨_, rfl, le_rfl⟩ _ (allPublications_ordered numbers trusted) _
  · change Begins size (numbers.qListPublications trusted .start size) _
    rw [qListPublications_eq, List.filter_eq_self.mpr]
    · exact .take size _
    · intro row member
      rcases isDated row member with ⟨t, isTime, less⟩
      rw [PublicationsCursor.isBefore, isTime, Bool.and_eq_true]
      exact ⟨decide_eq_true less, decide_eq_true (iri_lt_start member)⟩
  · intro row member
    rw [selectedBy_encode]
    change Begins size (numbers.qListPublications trusted _ size) _
    rw [qListPublications_eq]
    rcases isDated row member with ⟨t, isTime, -⟩
    have same : (numbers.allPublications trusted).filter
        (PublicationsCursor.mk (row.updateTime.getD 0) row.iri).isBefore =
          (numbers.allPublications trusted).filter fun other =>
            Below other.publicationKey row.publicationKey := by
      apply List.filter_congr
      intro other isOther
      rcases isDated other isOther with ⟨t', isTime', -⟩
      rw [Bool.eq_iff_iff, decide_eq_true_iff]
      exact isBefore_iff_below isTime isTime'
    rw [same]
    exact .take size _

theorem publications_listed_iff {T : TokenFormat PublicationsCursor} {address : Nat}
    (positive : 0 < size) :
    (∃ rows, Follows ((numbers.publications (some T) trusted).pages size address)
        "" "" rows ∧ ListsPublications numbers trusted rows) ↔
      Dated numbers trusted ∧
        Descends size DocumentRow.publicationKey
          (numbers.allPublications trusted) := by
  constructor
  · rintro ⟨rows, followed, lists⟩
    rcases listsPublications_iff.mp lists with rfl
    have dated := dated_of_follows positive followed
    exact ⟨dated, (publications_follow_iff positive dated).mp followed⟩
  · rintro ⟨dated, descends⟩
    exact ⟨_, (publications_follow_iff positive dated).mpr descends,
      listsPublications_iff.mpr rfl⟩

end Publications

end Mintter.Hyper
