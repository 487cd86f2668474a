import Mintter.Foundation.Pages
import Mintter.Hyper.Accepted
import Mintter.Hyper.SampleFormats

/-!
# Listing the mentions of an entity

`ListEntityMentions` lists the links to an entity from changes and comments, by
the number of the source blob and the number of the link, or in reverse.  The
page token holds both numbers of the last row, but the query is given the number
of the blob twice: the rows that follow are taken to be those behind the pair
of the blob's number and the blob's number.

`mentions_listed_iff` says when following the tokens lists every mention once and
in order: when at the end of each page it makes no difference, for the links of
that blob, whether their numbers are compared with the number of the link or with
the number of the blob.
-/

namespace Mintter.Hyper

open Mintter.Foundation

/-- Where a page of mentions ends. -/
structure MentionsCursor where
  blobID : Int
  linkID : Int
deriving DecidableEq, Encodable

/-- The text of a cursor; the zero cursor has none. -/
def MentionsCursor.text (T : TokenFormat MentionsCursor) (mc : MentionsCursor) :
    String :=
  if mc.blobID = 0 ∧ mc.linkID = 0 then "" else T.encode mc

/-- A row of the query for mentions. -/
structure MentionRow where
  iri : Option String
  codec : Nat
  multihash : String
  author : Principal
  ts : Option Int
  type : String
  isDraft : Bool
  isPinned : Bool
  metadata : LinkMeta
  blobID : Nat
  linkID : Int
deriving DecidableEq

/-- A place in the order of the mentions. -/
abbrev MentionPlace : Type := Int ×ₗ Int

/-- The place of a mention: the number of its blob, then that of its link. -/
def MentionRow.place (row : MentionRow) : MentionPlace :=
  toLex ((row.blobID : Int), row.linkID)

variable {Data : Type} (F : Formats Data)

/-- The numbers of the links to resources, which the table of the links gives them. -/
structure LinkNumbers (s : Store Data) where
  rows : List (Int × ResourceLinkRow)
  rows_eq : rows.map Prod.snd = s.resourceLinks
  nodup : (rows.map Prod.fst).Nodup
  bounded : ∀ row ∈ rows, 0 < row.1 ∧ row.1 < maxInt64
  blobs_bounded : ∀ row ∈ s.blobs, (row.id : Int) ≤ maxInt64

section Query

variable (s : Store Data) (links : LinkNumbers s)

/-- The structural blob that a link comes from. -/
def Store.linkSource (link : ResourceLinkRow) : Option StructuralBlobRow :=
  s.structuralBlobs.find? (·.blob == link.source)

/-- The link comes from a change or a comment. -/
def Store.isMention (link : ResourceLinkRow) : Bool :=
  (s.linkSource link).any fun sb => sb.type == "Change" || sb.type == "Comment"

/-- The row that the joins make of a link. -/
def Store.mentionRow (numbered : Int × ResourceLinkRow) : Option MentionRow := do
  let sb ← s.linkSource numbered.2
  let row ← s.blobRow numbered.2.source
  let author ← sb.author
  if sb.type = "Change" ∨ sb.type = "Comment" then
    some {
      iri := sb.resource
      codec := row.codec
      multihash := row.multihash
      author := author
      ts := sb.ts
      type := sb.type
      isDraft := s.drafts.any (·.blob == numbered.2.source)
      isPinned := numbered.2.isPinned
      metadata := numbered.2.metadata
      blobID := row.id
      linkID := numbered.1 }
  else none

variable {s}

/-- The mentions of an entity in no order. -/
def LinkNumbers.unordered (target : String) : List MentionRow :=
  (links.rows.filter (·.2.target == target)).filterMap s.mentionRow

/-- All mentions of an entity. -/
def LinkNumbers.mentions (reverse : Bool) (target : String) : List MentionRow :=
  orderBy reverse MentionRow.place (links.unordered target)

/-- The mentions behind a place, and one more than fit on the page. -/
def LinkNumbers.qListMentions (reverse : Bool)
    (target : String) (blobID linkID pageSize : Int) : List MentionRow :=
  sqlLimit (pageSize + 1) (orderBy reverse MentionRow.place
    ((links.unordered target).filter fun row =>
      Behind reverse (toLex (blobID, linkID)) row.place))

end Query

/-! ## The request -/

/-- A request for a page of mentions. -/
structure ListEntityMentionsRequest where
  id : String
  pageSize : Int
  pageToken : String
  reverseOrder : Bool

/-- The blob that mentions an entity. -/
structure MentionBlobInfo where
  cid : String
  author : String
  createTime : Int
  isDraft : Bool

/-- A mention as it is listed. -/
structure Mention where
  source : String
  sourceContext : String
  sourceBlob : MentionBlobInfo
  targetVersion : String
  isExactVersion : Bool
  targetFragment : String

/-- A change needs a resource to be shown as a source. -/
def MentionRow.hasSource (row : MentionRow) : Prop :=
  ¬ (row.iri.getD "" = "" ∧ row.type ≠ "Comment")

instance : DecidablePred MentionRow.hasSource := fun row =>
  inferInstanceAs (Decidable (¬ (row.iri.getD "" = "" ∧ row.type ≠ "Comment")))

/-- A mention needs a source. -/
def MentionRow.check (row : MentionRow) : Except String Unit :=
  if row.hasSource then .ok ()
  else .error s!"BUG: missing source for mention of type '{row.type}'"

/-- The mention of a row, with its time in microseconds. -/
def MentionRow.mention (row : MentionRow) : Mention :=
  let sourceBlob := F.newCidV1 row.codec row.multihash
  let anchor := match row.metadata with
    | .document anchor _ _ => anchor
    | _ => ""
  let fragment := match row.metadata with
    | .document _ fragment _ => fragment
    | _ => ""
  let version := match row.metadata with
    | .document _ _ version => version
    | _ => ""
  { source :=
      if row.type = "Comment" then "hm://c/" ++ sourceBlob else row.iri.getD ""
    sourceContext := anchor
    sourceBlob := {
      cid := sourceBlob
      author := F.principalString row.author
      createTime := row.ts.getD 0
      isDraft := row.isDraft }
    targetVersion := version
    isExactVersion := row.isPinned
    targetFragment := fragment }

section Request

variable (T : TokenFormat MentionsCursor) {s : Store Data} (links : LinkNumbers s)

/-- The cursor of the last row of a page. -/
def mentionToken (last : Option MentionRow) : String :=
  MentionsCursor.text T <| match last with
    | none => ⟨0, 0⟩
    | some row => ⟨row.blobID, row.linkID⟩

/-- The cursor that a request starts from. -/
def ListEntityMentionsRequest.cursor (req : ListEntityMentionsRequest) :
    Except String MentionsCursor :=
  if req.pageToken = "" then
    .ok (if req.reverseOrder then ⟨maxInt64, maxInt64⟩ else ⟨0, 0⟩)
  else (T.decode req.pageToken).mapError (s!"failed to decode page token: {·}")

/-- The rows of a page and the token of the next one. -/
def LinkNumbers.listMentionRows (req : ListEntityMentionsRequest) :
    Except String (List MentionRow × String) :=
  if req.id = "" then .error "id: argument is required"
  else do
    let cursor ← req.cursor T
    let pageSize := if req.pageSize = 0 then 10 else req.pageSize
    if s.resourceRow req.id = none then
      .error s!"entity '{req.id}' is not found"
    else
      (links.qListMentions req.reverseOrder req.id cursor.blobID cursor.blobID
        pageSize).foldlM
          (collectRow pageSize MentionRow.check (mentionToken T)) ([], "")

/-- A page of mentions and the token of the next one. -/
def LinkNumbers.listEntityMentions (req : ListEntityMentionsRequest) :
    Except String (List Mention × String) := do
  let (rows, nextPageToken) ← links.listMentionRows T req
  .ok (rows.map (·.mention F), nextPageToken)

end Request

/-! ## Rows in order -/

section Order

variable {reverse : Bool} {x y z : MentionRow} {s : Store Data}
variable {links : LinkNumbers s} {target : String}

theorem place_ne (differ : x.linkID ≠ y.linkID) : x.place ≠ y.place :=
  fun same => differ (Prod.mk.inj (toLex_inj.mp same)).2

/-- The row of a link has the number of the link. -/
theorem linkID_of_mentionRow {numbered : Int × ResourceLinkRow}
    (isRow : s.mentionRow numbered = some x) : x.linkID = numbered.1 := by
  simp only [Store.mentionRow, Option.bind_eq_bind, Option.bind_eq_some_iff] at isRow
  rcases isRow with ⟨_, -, _, -, _, -, shape⟩
  split at shape
  · exact Option.some.inj shape ▸ rfl
  · cases shape

theorem LinkNumbers.unordered_distinct (links : LinkNumbers s) (target : String) :
    (links.unordered target).Pairwise fun x y => x.place ≠ y.place := by
  have apart : links.rows.Pairwise fun x y => x.1 ≠ y.1 :=
    List.pairwise_map.mp links.nodup
  refine List.Pairwise.filterMap _ ?_ (apart.filter _)
  intro link link' differ x isRow x' isRow'
  apply place_ne
  rwa [linkID_of_mentionRow isRow, linkID_of_mentionRow isRow']

theorem LinkNumbers.mem_mentions : x ∈ links.mentions reverse target ↔
    ∃ numbered ∈ links.rows, numbered.2.target = target ∧
      s.mentionRow numbered = some x := by
  rw [mentions, mem_orderBy, unordered, List.mem_filterMap]
  constructor
  · rintro ⟨numbered, member, isRow⟩
    rcases List.mem_filter.mp member with ⟨isLink, isTarget⟩
    exact ⟨numbered, isLink, by simpa using isTarget, isRow⟩
  · rintro ⟨numbered, isLink, isTarget, isRow⟩
    exact ⟨numbered, List.mem_filter.mpr ⟨isLink, by simpa using isTarget⟩, isRow⟩

theorem LinkNumbers.mentions_ordered (links : LinkNumbers s) (reverse : Bool)
    (target : String) : (links.mentions reverse target).Pairwise fun x y =>
      Behind reverse x.place y.place :=
  orderBy_ordered (links.unordered_distinct target)

/-- The query selects among all mentions and keeps one row more than a page. -/
theorem LinkNumbers.qListMentions_eq (links : LinkNumbers s) (reverse : Bool)
    (target : String) (blobID linkID : Int) (size : Nat) :
    links.qListMentions reverse target blobID linkID size =
      ((links.mentions reverse target).filter fun row =>
        Behind reverse (toLex (blobID, linkID)) row.place).take (size + 1) := by
  have positive : ¬ ((size : Int) + 1 < 0) := by omega
  rw [qListMentions, sqlLimit, if_neg positive,
    orderBy_filter _ (links.unordered_distinct target), mentions]
  rfl

end Order

/-! ## Following the tokens -/

section Listing

variable {T : TokenFormat MentionsCursor} {s : Store Data} {links : LinkNumbers s}
variable {reverse : Bool} {target : String} {pageSize : Int} {row : MentionRow}

/-- The answers to requests for mentions of an entity, by page token. -/
def LinkNumbers.pages (T : TokenFormat MentionsCursor) (links : LinkNumbers s)
    (target : String) (pageSize : Int) (reverse : Bool) (token : String) :
    Except String (List MentionRow × String) :=
  links.listMentionRows T ⟨target, pageSize, token, reverse⟩

/-- The rows list every mention of the entity once and in order. -/
structure ListsMentions (links : LinkNumbers s) (target : String) (reverse : Bool)
    (rows : List MentionRow) : Prop where
  ordered : rows.Pairwise fun x y => Behind reverse x.place y.place
  mentions : ∀ row ∈ rows, ∃ numbered ∈ links.rows,
    numbered.2.target = target ∧ s.mentionRow numbered = some row
  complete : ∀ numbered ∈ links.rows, numbered.2.target = target →
    s.isMention numbered.2 = true → ∃ row ∈ rows, s.mentionRow numbered = some row

/-- Every mention of the entity has an author, and a source to show. -/
def Attributed (links : LinkNumbers s) (target : String) : Prop :=
  ∀ numbered ∈ links.rows, numbered.2.target = target →
    s.isMention numbered.2 = true →
    ∃ row, s.mentionRow numbered = some row ∧ row.hasSource

/--
For a link of the same blob it makes no difference whether its number is compared
with the number of the link in the row or with the number of the blob.
-/
def KeepsPlace (reverse : Bool) (row other : MentionRow) : Prop :=
  other.blobID = row.blobID →
    (Behind reverse row.linkID other.linkID ↔
      Behind reverse (row.blobID : Int) other.linkID)

instance (reverse : Bool) (row other : MentionRow) :
    Decidable (KeepsPlace reverse row other) :=
  inferInstanceAs (Decidable (_ → _))

/-- The rows that the query selects after a cursor, on all pages. -/
def LinkNumbers.selected (links : LinkNumbers s) (target : String) (reverse : Bool)
    (cursor : MentionsCursor) : List MentionRow :=
  (links.mentions reverse target).filter fun row =>
    Behind reverse (toLex (cursor.blobID, cursor.blobID)) row.place

theorem check_eq_ok : row.check = .ok () ↔ row.hasSource := by
  rw [MentionRow.check]
  split <;> simp_all

theorem isMention_of_mentionRow {numbered : Int × ResourceLinkRow}
    (isRow : s.mentionRow numbered = some row) : s.isMention numbered.2 = true := by
  simp only [Store.mentionRow, Option.bind_eq_bind, Option.bind_eq_some_iff] at isRow
  rcases isRow with ⟨sb, source, _, -, _, -, shape⟩
  rw [Store.isMention, source]
  split at shape
  · next isType => simpa using isType
  · cases shape

/-- A list of all mentions in order is the one list of them. -/
theorem ListsMentions.eq_mentions {rows : List MentionRow}
    (lists : ListsMentions links target reverse rows) :
    rows = links.mentions reverse target := by
  apply ordered_unique lists.ordered (links.mentions_ordered reverse target)
  intro row
  rw [links.mem_mentions]
  constructor
  · exact lists.mentions row
  · rintro ⟨numbered, isLink, isTarget, isRow⟩
    rcases lists.complete numbered isLink isTarget
      (isMention_of_mentionRow isRow) with ⟨other, member, isRow'⟩
    exact Option.some.inj (isRow.symm.trans isRow') ▸ member

/-- The attributed mentions are listed, and all of them pass their check. -/
theorem Attributed.lists (attributed : Attributed links target) :
    ListsMentions links target reverse (links.mentions reverse target) ∧
      ∀ row ∈ links.mentions reverse target, row.hasSource := by
  constructor
  · constructor
    · exact links.mentions_ordered reverse target
    · exact fun row member => links.mem_mentions.mp member
    · intro numbered isLink isTarget isMention
      rcases attributed numbered isLink isTarget isMention with ⟨row, isRow, -⟩
      exact ⟨row, links.mem_mentions.mpr ⟨numbered, isLink, isTarget, isRow⟩, isRow⟩
  · intro row member
    rcases links.mem_mentions.mp member with ⟨numbered, isLink, isTarget, isRow⟩
    rcases attributed numbered isLink isTarget (isMention_of_mentionRow isRow)
      with ⟨other, isRow', hasSource⟩
    exact Option.some.inj (isRow.symm.trans isRow') ▸ hasSource

/-- Mentions have a number, so their cursor has a text. -/
theorem mentionToken_of_mention (member : row ∈ links.mentions reverse target) :
    mentionToken T (some row) = T.encode ⟨row.blobID, row.linkID⟩ := by
  rcases links.mem_mentions.mp member with ⟨numbered, isLink, -, isRow⟩
  have positive := (links.bounded numbered isLink).1
  rw [← linkID_of_mentionRow isRow] at positive
  rw [mentionToken, MentionsCursor.text, if_neg]
  exact fun zero => positive.ne' zero.2

theorem LinkNumbers.numbers_bounded
    (member : row ∈ links.mentions reverse target) :
    (row.blobID : Int) ≤ maxInt64 ∧ 0 < row.linkID ∧ row.linkID < maxInt64 := by
  rcases links.mem_mentions.mp member with ⟨numbered, isLink, -, isRow⟩
  have bounds := links.bounded numbered isLink
  rw [← linkID_of_mentionRow isRow] at bounds
  refine ⟨?_, bounds⟩
  simp only [Store.mentionRow, Option.bind_eq_bind, Option.bind_eq_some_iff] at isRow
  rcases isRow with ⟨_, -, blob, found, _, -, shape⟩
  split at shape
  · exact Option.some.inj shape ▸
      links.blobs_bounded blob (List.mem_of_find?_eq_some found)
  · cases shape

/-- All mentions stand behind the first cursor. -/
theorem selected_start (links : LinkNumbers s) (target : String) (reverse : Bool) :
    links.selected target reverse
        (if reverse then ⟨maxInt64, maxInt64⟩ else ⟨0, 0⟩) =
      links.mentions reverse target := by
  rw [LinkNumbers.selected]
  refine List.filter_eq_self.mpr fun row member => decide_eq_true ?_
  rcases links.numbers_bounded member with ⟨blobBound, positive, linkBound⟩
  cases reverse with
  | false =>
      change toLex ((0 : Int), (0 : Int)) < toLex ((row.blobID : Int), row.linkID)
      rcases (Int.natCast_nonneg row.blobID).lt_or_eq with less | same
      · exact Prod.Lex.lt_iff.mpr (.inl less)
      · exact Prod.Lex.lt_iff.mpr (.inr ⟨same, positive⟩)
  | true =>
      change toLex ((row.blobID : Int), row.linkID) < toLex (maxInt64, maxInt64)
      rcases blobBound.lt_or_eq with less | same
      · exact Prod.Lex.lt_iff.mpr (.inl less)
      · exact Prod.Lex.lt_iff.mpr (.inr ⟨same, linkBound⟩)

/-- The cursor that a page token stands for. -/
def tokenCursor (T : TokenFormat MentionsCursor) (reverse : Bool) (token : String) :
    Except String MentionsCursor :=
  (ListEntityMentionsRequest.mk "" 0 token reverse).cursor T

/-- The rows that a page token selects. -/
def LinkNumbers.selectedBy (T : TokenFormat MentionsCursor) (links : LinkNumbers s)
    (target : String) (reverse : Bool) (token : String) : List MentionRow :=
  match tokenCursor T reverse token with
  | .ok cursor => links.selected target reverse cursor
  | .error _ => []

theorem tokenCursor_encode (cursor : MentionsCursor) :
    tokenCursor T reverse (T.encode cursor) = .ok cursor := by
  rw [tokenCursor, ListEntityMentionsRequest.cursor,
    if_neg (T.encode_ne_empty cursor), T.decode_encode]
  rfl

theorem tokenCursor_empty : tokenCursor T reverse "" =
    .ok (if reverse then ⟨maxInt64, maxInt64⟩ else ⟨0, 0⟩) := rfl

/-- What a request for a page answers when all rows pass their check. -/
theorem pages_eq {token : String} {cursor : MentionsCursor} {size : Nat}
    (positive : 0 < size) (named : target ≠ "")
    (present : s.resourceRow target ≠ none)
    (passes : ∀ row ∈ links.mentions reverse target, row.hasSource)
    (decoded : tokenCursor T reverse token = .ok cursor) :
    links.pages T target size reverse token =
      .ok ((links.selected target reverse cursor).take size,
        nextToken size "" (fun row => mentionToken T (some row))
          (links.selected target reverse cursor)) := by
  have notZero : (size : Int) ≠ 0 := by omega
  rw [LinkNumbers.pages, LinkNumbers.listMentionRows]
  simp only [named, present, notZero, ↓reduceIte]
  have decoded' : (ListEntityMentionsRequest.mk target size token reverse).cursor T =
      .ok cursor := decoded
  rw [decoded']
  change (links.qListMentions reverse target cursor.blobID cursor.blobID
    size).foldlM (collectRow (size : Int) MentionRow.check (mentionToken T))
      ([], "") = _
  rw [links.qListMentions_eq, collect_rows positive, nextToken_take, List.take_take,
    Nat.min_eq_left (Nat.le_succ size)]
  · rfl
  · intro row member
    apply check_eq_ok.mpr (passes row _)
    exact (List.mem_filter.mp (List.mem_of_mem_take member)).1

/-- The server of mentions serves pages of the rows that its tokens select. -/
theorem serves_mentions {size : Nat} (positive : 0 < size) (named : target ≠ "")
    (present : s.resourceRow target ≠ none)
    (passes : ∀ row ∈ links.mentions reverse target, row.hasSource) :
    Serves (links.pages T target size reverse) ""
      (fun token => ∃ cursor, tokenCursor T reverse token = .ok cursor) size
      (links.selectedBy T target reverse) fun row => mentionToken T (some row) := by
  have isMention : ∀ {token row}, row ∈ links.selectedBy T target reverse token →
      row ∈ links.mentions reverse target := by
    intro token row member
    rw [LinkNumbers.selectedBy] at member
    split at member
    · exact (List.mem_filter.mp member).1
    · cases member
  constructor
  · exact positive
  · rintro token ⟨cursor, decoded⟩
    have selection : links.selectedBy T target reverse token =
        links.selected target reverse cursor := by
      rw [LinkNumbers.selectedBy, decoded]
    rw [pages_eq positive named present passes decoded, selection]
  · intro token _ row member
    rw [mentionToken_of_mention (isMention member)]
    exact T.encode_ne_empty _
  · intro token _ row member
    refine ⟨⟨row.blobID, row.linkID⟩, ?_⟩
    rw [mentionToken_of_mention (isMention member)]
    exact tokenCursor_encode _

/-- The order of two rows, by the numbers of their blobs and links. -/
theorem behind_place_iff {blobID linkID : Int} {other : MentionRow} :
    Behind reverse (toLex (blobID, linkID)) other.place ↔
      Behind reverse blobID other.blobID ∨
        (other.blobID : Int) = blobID ∧ Behind reverse linkID other.linkID := by
  cases reverse with
  | false =>
      change toLex (blobID, linkID) < toLex ((other.blobID : Int), other.linkID) ↔ _
      rw [Prod.Lex.lt_iff, eq_comm]
      rfl
  | true =>
      change toLex ((other.blobID : Int), other.linkID) < toLex (blobID, linkID) ↔ _
      rw [Prod.Lex.lt_iff]
      rfl

/-- Both cursors select the same rows exactly when the links keep their place. -/
theorem behind_iff_keepsPlace {other : MentionRow} :
    (Behind reverse row.place other.place ↔
        Behind reverse (toLex ((row.blobID : Int), (row.blobID : Int))) other.place) ↔
      KeepsPlace reverse row other := by
  have irreflexive : ¬ Behind reverse (row.blobID : Int) row.blobID :=
    fun behind => behind_asymm behind behind
  rw [MentionRow.place, behind_place_iff, behind_place_iff, KeepsPlace]
  by_cases same : other.blobID = row.blobID
  · simp [same, irreflexive]
  · simp [same]

/-- The rows behind the last row of a page. -/
theorem back_eq {size : Nat} {back : List MentionRow}
    (ends : EndsPage size (links.mentions reverse target) row back) :
    row ∈ links.mentions reverse target ∧
      (links.mentions reverse target).filter (fun other =>
        Behind reverse row.place other.place) = back := by
  rcases ends with ⟨-, front, split, -⟩
  have ordered := links.mentions_ordered reverse target
  rw [split] at ordered ⊢
  exact ⟨List.mem_append_right _ List.mem_cons_self,
    filter_after_eq ordered (fun _ _ => behind_asymm) fun other => decide_eq_true_iff⟩

theorem selectedBy_token (member : row ∈ links.mentions reverse target) :
    links.selectedBy T target reverse (mentionToken T (some row)) =
      (links.mentions reverse target).filter fun other =>
        Behind reverse (toLex ((row.blobID : Int), (row.blobID : Int)))
          other.place := by
  rw [LinkNumbers.selectedBy, mentionToken_of_mention member, tokenCursor_encode]
  rfl

/-- When the links keep their place the token selects the rows behind its row. -/
theorem selectedBy_of_keepsPlace {size : Nat} {back : List MentionRow}
    (ends : EndsPage size (links.mentions reverse target) row back)
    (keeps : ∀ other ∈ links.mentions reverse target, KeepsPlace reverse row other) :
    links.selectedBy T target reverse (mentionToken T (some row)) = back := by
  rcases back_eq ends with ⟨member, rest⟩
  rw [selectedBy_token member, ← rest]
  refine List.filter_congr fun other isMention => decide_eq_decide.mpr ?_
  exact (behind_iff_keepsPlace.mpr (keeps other isMention)).symm

/-- The query goes on at the end of a page when the links of its blob keep their place. -/
theorem continues_iff {size : Nat} (positive : 0 < size) {back : List MentionRow}
    (ends : EndsPage size (links.mentions reverse target) row back) :
    Continues size (links.selectedBy T target reverse)
        (fun row => mentionToken T (some row)) row back ↔
      ∀ other ∈ links.mentions reverse target, KeepsPlace reverse row other := by
  constructor
  · rcases back_eq ends with ⟨member, rest⟩
    have ordered := links.mentions_ordered reverse target
    rintro ⟨pages, -⟩ other isMention
    rw [selectedBy_token member, ← rest] at pages
    have heads := congrArg List.head? pages
    rw [List.head?_take, List.head?_take, if_neg positive.ne', if_neg positive.ne']
      at heads
    have agree := filter_eq_of_head_eq ordered
      (fun x y behind isAfter => decide_eq_true
        (behind_trans (of_decide_eq_true isAfter) behind))
      (fun x y behind isAfter => decide_eq_true
        (behind_trans (of_decide_eq_true isAfter) behind)) heads.symm other isMention
    exact behind_iff_keepsPlace.mp (decide_eq_decide.mp agree)
  · intro keeps
    rw [Continues, selectedBy_of_keepsPlace ends keeps]
    exact ⟨rfl, id⟩

/-- The rows on a page have a source to show. -/
theorem hasSource_of_pages {token next : String} {rows : List MentionRow}
    (answered : links.pages T target pageSize reverse token = .ok (rows, next)) :
    ∀ row ∈ rows, row.hasSource := by
  rw [LinkNumbers.pages, LinkNumbers.listMentionRows] at answered
  split at answered
  · cases answered
  · cases decoded :
        (ListEntityMentionsRequest.mk target pageSize token reverse).cursor T with
    | error err =>
        rw [decoded] at answered
        cases answered
    | ok cursor =>
        rw [decoded] at answered
        change (if s.resourceRow target = none then Except.error _ else _) = _ at answered
        split at answered
        · cases answered
        · have passed := collect_checked
            (fun _ absent => absurd absent List.not_mem_nil) answered
          exact fun row member => check_eq_ok.mp (passed row member)

/--
Following the page tokens from the empty one lists every mention of an entity
once and in order if and only if the mentions are attributed and, at every row
that ends a page with more to come, the links of its blob keep their place when
they are compared with the number of the blob.
-/
theorem mentions_listed_iff (T : TokenFormat MentionsCursor) (links : LinkNumbers s)
    (named : target ≠ "") (present : s.resourceRow target ≠ none)
    (positive : 1 ≤ pageSize) (reverse : Bool) :
    (∃ rows, Follows (links.pages T target pageSize reverse) "" "" rows ∧
        ListsMentions links target reverse rows) ↔
      Attributed links target ∧
        ∀ row back,
          EndsPage pageSize.toNat (links.mentions reverse target) row back →
          ∀ other ∈ links.mentions reverse target, KeepsPlace reverse row other := by
  obtain ⟨size, rfl⟩ : ∃ size : Nat, pageSize = size :=
    ⟨pageSize.toNat, (Int.toNat_of_nonneg (by omega)).symm⟩
  have isPositive : 0 < size := by omega
  rw [Int.toNat_natCast]
  have started : links.selectedBy T target reverse "" =
      links.mentions reverse target := selected_start links target reverse
  have followed_iff : (∀ row ∈ links.mentions reverse target, row.hasSource) →
      (Follows (links.pages T target size reverse) "" ""
          (links.mentions reverse target) ↔
        ∀ row back, EndsPage size (links.mentions reverse target) row back →
          ∀ other ∈ links.mentions reverse target, KeepsPlace reverse row other) := by
    intro passes
    have serves : Serves _ _ _ _ _ _ :=
      serves_mentions (T := T) isPositive named present passes
    have begins : Begins size (links.selectedBy T target reverse "")
        (links.mentions reverse target) := by
      rw [started]
      exact .refl size _
    have boundaries := serves.follows_iff_boundaries
      ⟨_, tokenCursor_empty⟩ begins ?_
    · rw [boundaries]
      exact forall₂_congr fun row back => forall_congr' fun ends =>
        continues_iff isPositive ends
    · intro row back ends continues longer
      have keeps := (continues_iff isPositive ends).mp continues
      rwa [selectedBy_of_keepsPlace ends keeps] at longer
  constructor
  · rintro ⟨rows, followed, lists⟩
    obtain rfl := lists.eq_mentions
    have passes := followed.all_rows MentionRow.hasSource
      fun answered => hasSource_of_pages answered
    refine ⟨?_, (followed_iff passes).mp followed⟩
    intro numbered isLink isTarget isMention
    rcases lists.complete numbered isLink isTarget isMention with ⟨row, member, isRow⟩
    exact ⟨row, isRow, passes row member⟩
  · rintro ⟨attributed, keeps⟩
    rcases attributed.lists with ⟨lists, passes⟩
    exact ⟨_, (followed_iff passes).mpr keeps, lists⟩

end Listing

/-! ## Two stores with mentions -/

section Samples

/-- A comment by a key. -/
def commentRow (hash : String) : StructuralBlobRow :=
  ⟨hash, "Comment", some 1, some [1], none, none⟩

/-- A link to a document. -/
def documentLink (source : String) : ResourceLinkRow :=
  ⟨source, "hm://d/doc", "comment/href", false, .none⟩

/-- Comments with these numbers, and links of comments to a document. -/
def commentStore (blobs : List (Nat × String)) (links : List String) : Store Unit :=
  { (Store.empty : Store Unit) with
    blobs := blobs.map fun blob => ⟨blob.1, blob.2, dagCbor, some (), 1⟩
    structuralBlobs := blobs.map fun blob => commentRow blob.2
    resourceLinks := links.map documentLink
    resources := [⟨"hm://d/doc", none, none⟩] }

/-- Two comments, each with a link whose number is that of the comment. -/
def pairStore : Store Unit := commentStore [(1, "one"), (2, "two")] ["one", "two"]

/-- The links have the numbers of their comments. -/
def pairLinks : LinkNumbers pairStore where
  rows := [(1, documentLink "one"), (2, documentLink "two")]
  rows_eq := rfl
  nodup := by decide
  bounded := by decide
  blobs_bounded := by decide

/-- A token format that writes the given cursor with this text. -/
def sampleTokens (known : MentionsCursor) (text : String)
    (differs : text.toList.head? ≠ some 'c') (nonempty : text ≠ "") :
    TokenFormat MentionsCursor :=
  (TokenFormat.counted MentionsCursor).withText known text
    (TokenFormat.counted_ne _ differs) nonempty

theorem mentions_listed_pairLinks :
    ∃ rows, Follows (pairLinks.pages (sampleTokens ⟨1, 1⟩ "eyJiIjoxLCJsIjoxfQ"
        (by decide) (by decide)) "hm://d/doc" 1 false) "" "" rows ∧
      ListsMentions pairLinks "hm://d/doc" false rows := by
  apply (mentions_listed_iff _ pairLinks (by decide) (by decide) le_rfl false).mpr
  constructor
  · intro numbered isLink _ _
    rcases List.mem_cons.mp isLink with rfl | isLink
    · exact ⟨_, rfl, by decide⟩
    · rcases List.mem_singleton.mp isLink with rfl
      exact ⟨_, rfl, by decide⟩
  · intro row back ends
    have apart : ∀ row ∈ pairLinks.mentions false "hm://d/doc",
        ∀ other ∈ pairLinks.mentions false "hm://d/doc",
          KeepsPlace false row other := by decide
    exact apart row (back_eq ends).1

/-- A comment about a document that embeds the document. -/
def embeddingComment : Comment where
  delegation := "cdelegation1"
  target := "hm://d/doc"
  threadRoot := ""
  repliedComment := ""
  hlcTime := 1700000001000000
  body := [.mk "block" "embed" "hm://d/doc" [] []]
  signer := samplePrincipal 11
  sig := "signature"

/-- A file and a delegation arrive before the comment. -/
def commentArrivals : List (Arrival DecodedBlob) :=
  [⟨.listed, sampleCidV1 dagPb "node", .dagPB []⟩,
    ⟨.listed, "cdelegation1", .keyDelegation (sampleDelegation 1 11)⟩,
    ⟨.listed, "ccomment", .comment embeddingComment⟩]

def commentArrivalsResult : Evaluated (performAll (accept (urlFormats sampleSha256)) .empty
    commentArrivals) :=
  .of (by decide +kernel)

/-- The comment has the number three, and its links have the numbers two and three. -/
def mentioningStore : Store DecodedBlob := commentArrivalsResult.val

/-- A link of the comment to the document. -/
def embeddedLink (type : String) (anchor : String) : ResourceLinkRow :=
  ⟨"comment", "hm://d/doc", type, false, .document anchor "" ""⟩

/-- The links are numbered as they were added. -/
def mentioningLinks : LinkNumbers mentioningStore where
  rows := [(1, ⟨"delegation1", "hm://a/" ++ base58Text (samplePrincipal 1), "kd/issuer", false,
      .none⟩),
    (2, embeddedLink "comment/target" ""), (3, embeddedLink "comment/embed" "block")]
  rows_eq := by decide +kernel
  nodup := by decide
  bounded := by decide
  blobs_bounded := by decide +kernel

/-- The rows behind the number of the comment leave out its second link. -/
theorem second_mention_not_listed :
    ∃ s, Reaches (accept (urlFormats sampleSha256)) (fun _ _ => True) .empty s ∧
      ∃ (links : LinkNumbers s) (T : TokenFormat MentionsCursor),
        ¬ ∃ rows, Follows (links.pages T "hm://d/doc" 1 false) "" "" rows ∧
          ListsMentions links "hm://d/doc" false rows := by
  refine ⟨mentioningStore,
    reaches_of_performAll (allPermitted_true _) commentArrivalsResult.property,
    mentioningLinks, sampleTokens ⟨3, 2⟩ "eyJiIjozLCJsIjoyfQ" (by decide) (by decide), ?_⟩
  rintro ⟨rows, followed, lists⟩
  have first : mentioningLinks.pages (sampleTokens ⟨3, 2⟩ "eyJiIjozLCJsIjoyfQ"
      (by decide) (by decide)) "hm://d/doc" 1 false "" =
        .ok ((mentioningLinks.mentions false "hm://d/doc").take 1, "eyJiIjozLCJsIjoyfQ") :=
    by decide +kernel
  have second : mentioningLinks.pages (sampleTokens ⟨3, 2⟩ "eyJiIjozLCJsIjoyfQ"
      (by decide) (by decide)) "hm://d/doc" 1 false "eyJiIjozLCJsIjoyfQ" =
        .ok ([], "") := by decide +kernel
  have listed := followed.unique (.more first (by decide) (.last second))
  rcases lists.complete (3, embeddedLink "comment/embed" "block") (by decide) (by decide)
    (by decide +kernel) with ⟨row, member, isRow⟩
  rw [listed] at member
  have different : ∀ row ∈ (mentioningLinks.mentions false "hm://d/doc").take 1 ++ [],
      mentioningStore.mentionRow (3, embeddedLink "comment/embed" "block") ≠ some row := by
    decide +kernel
  exact different row member isRow

end Samples

end Mintter.Hyper
