import Mathlib.Tactic
import Mintter.Frontend.EntityLinks

/-!
# Links read back

A link is a path, a query and a fragment, each behind a separator that the parts before it do not
have.  So the separators give the parts back (`parseCustomURL_link`), and what a link loses is
lost when a part is written (`links_round_trip_iff`): an empty text and the root path are written
like no text, an empty list of variants like no list, a range that is not expanded like no range;
and a range behind a block reference with white space reads as part of the reference.
-/

namespace Mintter.Frontend

/-! ## Units -/

/-- The units that entities and path names are made of. -/
def isWordUnit (u : UInt16) : Bool :=
  (48 ≤ u ∧ u ≤ 57) ∨ (65 ≤ u ∧ u ≤ 90) ∨ (97 ≤ u ∧ u ≤ 122) ∨ u = unit '_' ∨ u = unit '-'

/-- The text has only letters, digits, `-` and `_`. -/
def IsWord (text : Text) : Prop := ∀ u ∈ text, isWordUnit u = true

/-- The units of a path and a query. -/
def isLinkUnit (u : UInt16) : Bool :=
  isWordUnit u ∨ u ∈ literal ['/', '.', '=', '&']

/-- What the documentation of the platform says. -/
structure Platform.Documented (p : Platform) : Prop where
  urlText : ∀ (type : EntityType) (rest : Text),
    (∀ u ∈ rest, isWordUnit u = true ∨ u = unit '/') →
      p.urlText (literal ['h', 'm', ':', '/', '/'] ++ type.text ++ unit '/' :: rest) =
        literal ['h', 'm', ':', '/', '/'] ++ type.text ++ unit '/' :: rest
  percentDecode : ∀ text : Text, (∀ u ∈ text, u < 128 ∧ u ≠ unit '%') → p.percentDecode text = text

theorem isWord_text (type : EntityType) : IsWord type.text := by
  intro u member
  cases type <;> rw [List.mem_singleton.mp member] <;> decide

/-! ## Separators -/

/-- A part that may be missing, behind its separator. -/
def behind (separator : UInt16) (part : Option Text) : Text :=
  (part.map (separator :: ·)).getD []

theorem splitOn_behind {separator : UInt16} {before : Text} {part : Option Text}
    (fresh : separator ∉ before) (freshPart : ∀ text ∈ part, separator ∉ text) :
    (before ++ behind separator part).splitOn separator = before :: part.toList := by
  cases part with
  | none =>
      rw [behind, Option.map_none, Option.getD_none, List.append_nil]
      exact List.splitOn_eq_singleton fresh
  | some text =>
      rw [behind, Option.map_some, Option.getD_some,
        List.splitOn_append_cons_self_of_not_mem fresh,
        List.splitOn_eq_singleton (freshPart text rfl), Option.toList_some]

theorem mem_intercalate {separator u : UInt16} {texts : List Text}
    (member : u ∈ [separator].intercalate texts) : u = separator ∨ ∃ text ∈ texts, u ∈ text := by
  induction texts with
  | nil => cases member
  | cons text rest induction =>
      cases rest with
      | nil =>
          rw [List.intercalate_singleton] at member
          exact .inr ⟨text, List.mem_cons_self, member⟩
      | cons next rest =>
          rw [List.intercalate_cons_cons, List.mem_append, List.mem_append,
            List.mem_singleton] at member
          rcases member with (inText | isSeparator) | later
          · exact .inr ⟨text, List.mem_cons_self, inText⟩
          · exact .inl isSeparator
          · rcases induction later with isSeparator | ⟨other, isOther, inOther⟩
            · exact .inl isSeparator
            · exact .inr ⟨other, List.mem_cons_of_mem _ isOther, inOther⟩

/-- A colon before the slashes is none of a link's. -/
theorem cutText_eq_none {before after : Text} (noColon : unit ':' ∉ before)
    (noSlash : unit '/' ∉ after) :
    cutText (literal [':', '/', '/']) (before ++ after) = none := by
  induction before with
  | nil =>
      induction after with
      | nil => rfl
      | cons u rest induction =>
          rw [List.mem_cons, not_or] at noSlash
          rw [List.nil_append, cutText, if_neg, ← List.nil_append rest, induction noSlash.2]
          · exact rfl
          · intro isPrefix
            rcases List.cons_prefix_cons.mp isPrefix with ⟨-, isPrefix⟩
            cases rest with
            | nil => cases List.prefix_nil.mp isPrefix
            | cons v rest =>
                apply noSlash.2
                rw [← (List.cons_prefix_cons.mp isPrefix).1]
                exact List.mem_cons_self
  | cons u rest induction =>
      rw [List.mem_cons, not_or] at noColon
      rw [List.cons_append, cutText, if_neg, induction noColon.2]
      · exact rfl
      · intro isPrefix
        exact noColon.1 (List.cons_prefix_cons.mp isPrefix).1

theorem cutText_scheme (rest : Text) :
    cutText (literal [':', '/', '/']) (literal ['h', 'm', ':', '/', '/'] ++ rest) =
      some (literal ['h', 'm'], rest) := by
  have here : literal [':', '/', '/'] <+: literal [':', '/', '/'] ++ rest :=
    List.prefix_append ..
  have notH : ¬ literal [':', '/', '/'] <+: literal ['h', 'm', ':', '/', '/'] ++ rest :=
    fun isPrefix => absurd (List.cons_prefix_cons.mp isPrefix).1 (by decide)
  have notM : ¬ literal [':', '/', '/'] <+: literal ['m', ':', '/', '/'] ++ rest :=
    fun isPrefix => absurd (List.cons_prefix_cons.mp isPrefix).1 (by decide)
  simp only [literal, List.map_cons, List.map_nil, List.cons_append, List.nil_append] at *
  simp [cutText, here, notH, notM]

theorem mem_behind {separator u : UInt16} {part : Option Text} :
    u ∈ behind separator part ↔ ∃ text, part = some text ∧ (u = separator ∨ u ∈ text) := by
  cases part with
  | none => simp [behind]
  | some text => simp [behind]

/-- The separators of a link give its parts back. -/
theorem parseCustomURL_link (p : Platform) {path : Text} {query fragment : Option Text}
    (nonempty : path ≠ []) (isPath : ∀ u ∈ path, isWordUnit u = true ∨ u = unit '/')
    (isQuery : ∀ text ∈ query, ∀ u ∈ text, isLinkUnit u = true)
    (isFragment : ∀ text ∈ fragment, unit '#' ∉ text ∧ unit '/' ∉ text) :
    parseCustomURL p (literal ['h', 'm', ':', '/', '/'] ++ path ++ behind (unit '?') query ++
        behind (unit '#') fragment) =
      some ⟨literal ['h', 'm'], path.splitOn (unit '/'), parseQuery p query, fragment⟩ := by
  have noUnit : ∀ {u : UInt16}, isLinkUnit u = false → u ≠ unit '?' →
      u ∉ path ++ behind (unit '?') query := by
    intro u other notMark member
    rcases List.mem_append.mp member with inPath | inQuery
    · rcases isPath u inPath with word | rfl
      · simp [isLinkUnit, word] at other
      · cases other
    · rcases mem_behind.mp inQuery with ⟨text, isText, isMark | inText⟩
      · exact notMark isMark
      · rw [isQuery text isText u inText] at other
        cases other
  have noSlash : unit '/' ∉ behind (unit '#') fragment := by
    intro member
    rcases mem_behind.mp member with ⟨text, isText, isHash | inText⟩
    · cases isHash
    · exact (isFragment text isText).2 inText
  have noMark : unit '?' ∉ path := by
    intro member
    rcases isPath _ member with word | isSlash
    · cases word
    · cases isSlash
  have noMark' : ∀ text ∈ query, unit '?' ∉ text := by
    intro text isText member
    cases isQuery text isText _ member
  rw [parseCustomURL, List.append_assoc, List.append_assoc, cutText_scheme, Option.bind_some,
    ← List.append_assoc]
  simp only [cutText_eq_none (noUnit rfl (by decide)) noSlash]
  rw [if_neg (by simp [nonempty]),
    splitOn_behind (noUnit rfl (by decide)) fun text isText => (isFragment text isText).1,
    List.headD_cons, splitOn_behind noMark noMark', List.headD_cons]
  cases query <;> cases fragment <;> exact rfl

/-! ## Fragments -/

theorem isDigit_ofNat {digit : Nat} (small : digit < 10) :
    isDigit (UInt16.ofNat (digit + 48)) = true ∧
      (UInt16.ofNat (digit + 48)).toNat - 48 = digit := by
  have value : (UInt16.ofNat (digit + 48)).toNat = digit + 48 :=
    UInt16.toNat_ofNat_of_lt' (by
      show digit + 48 < 65536
      omega)
  constructor
  · simp only [isDigit, decide_eq_true_eq, UInt16.le_iff_toNat_le, value]
    constructor
    · exact Nat.le_add_left 48 digit
    · exact Nat.add_le_add_right (Nat.le_of_lt_succ small) 48
  · rw [value, Nat.add_sub_cancel]

theorem decimal_ne_nil (n : Nat) : decimal n ≠ [] := by
  rw [decimal]
  split
  · exact List.cons_ne_nil _ _
  · next positive =>
      rw [Ne, List.map_eq_nil_iff, List.reverse_eq_nil_iff]
      exact Nat.digits_ne_nil_iff_ne_zero.mpr positive

theorem isDigit_of_mem_decimal {n : Nat} {u : UInt16} (member : u ∈ decimal n) :
    isDigit u = true := by
  rw [decimal] at member
  split at member
  · rw [List.mem_singleton.mp member]
    decide
  · rcases List.mem_map.mp member with ⟨digit, isDigit, rfl⟩
    exact (isDigit_ofNat (Nat.digits_lt_base (by decide) (List.mem_reverse.mp isDigit))).1

@[simp]
theorem parseInt_decimal (n : Nat) : parseInt (decimal n) = n := by
  rw [decimal]
  split
  · next zero =>
      rw [zero]
      decide
  · rw [parseInt, ← List.map_reverse, List.reverse_reverse, List.map_map]
    have same : ∀ digit ∈ Nat.digits 10 n,
        ((fun u : UInt16 => u.toNat - 48) ∘ fun digit => UInt16.ofNat (digit + 48)) digit =
          digit :=
      fun digit isDigit => (isDigit_ofNat (Nat.digits_lt_base (by decide) isDigit)).2
    rw [List.map_congr_left same, List.map_id', Nat.ofDigits_digits]

/-- The digits in front of another unit. -/
theorem span_decimal (n : Nat) {u : UInt16} (other : isDigit u = false) (rest : Text) :
    (decimal n ++ u :: rest).takeWhile isDigit = decimal n ∧
      (decimal n ++ u :: rest).dropWhile isDigit = u :: rest := by
  have digits : ∀ v ∈ decimal n, isDigit v = true := fun _ => isDigit_of_mem_decimal
  constructor
  · rw [List.takeWhile_append_of_pos digits, List.takeWhile_cons, other]
    simp
  · rw [List.dropWhile_append_of_pos digits, List.dropWhile_cons, other]
    simp

/-- A range that is not expanded reads as none. -/
theorem parseSuffix_serializeBlockRange (range : Option BlockRange) :
    parseSuffix (serializeBlockRange range) = some (range.filter (· ≠ .expanded false)) := by
  rcases range with - | ⟨start, stop⟩ | ⟨- | -⟩
  · exact rfl
  · have suffix : serializeBlockRange (some (.between start stop)) =
        unit '[' :: (decimal start ++ unit ':' :: (decimal stop ++ [unit ']'])) := by
      simp [serializeBlockRange, literal]
    have first := span_decimal start (u := unit ':') rfl (decimal stop ++ [unit ']'])
    have second := span_decimal stop (u := unit ']') rfl []
    have notPlus : ∀ rest, unit '[' :: rest ≠ literal ['+'] := by
      intro rest same
      cases (List.cons.inj same).1
    rw [suffix, parseSuffix, if_neg (List.cons_ne_nil _ _), if_neg (notPlus _)]
    simp only [List.drop_succ_cons, List.drop_zero, first, second]
    simp [literal, decimal_ne_nil, Option.filter_some]
  · exact rfl
  · exact rfl

/-- A block reference is eight units long, and none of a fragment's separators. -/
def IsBlockRef (ref : Text) : Prop :=
  ref.length = 8 ∧ unit '#' ∉ ref ∧ unit '?' ∉ ref ∧ unit '/' ∉ ref

theorem parseFragment_blockRef {ref : Text} (range : Option BlockRange) (eight : ref.length = 8) :
    parseFragment (some (ref ++ serializeBlockRange range)) =
      some (if ref.all (! isWhiteSpace ·) then ⟨ref, range.filter (· ≠ .expanded false)⟩
        else ⟨ref ++ serializeBlockRange range, none⟩) := by
  have nonempty : ref ++ serializeBlockRange range ≠ [] := by
    intro isEmpty
    rw [(List.append_eq_nil_iff.mp isEmpty).1] at eight
    cases eight
  have long : 8 ≤ (ref ++ serializeBlockRange range).length := by
    rw [List.length_append, eight]
    exact Nat.le_add_right ..
  rw [parseFragment, truthy, Option.filter_some, if_pos (decide_eq_true nonempty), Option.map_some,
    ← eight, List.take_left, List.drop_left, parseSuffix_serializeBlockRange, eight]
  simp only [long, true_and]

theorem notMem_serializeBlockRange {u : UInt16} (range : Option BlockRange)
    (notDigit : isDigit u = false) (other : u ∉ literal ['+', '[', ':', ']']) :
    u ∉ serializeBlockRange range := by
  have notDecimal : ∀ n, u ∉ decimal n := by
    intro n member
    rw [isDigit_of_mem_decimal member] at notDigit
    cases notDigit
  simp only [literal, List.map_cons, List.map_nil, List.mem_cons, List.not_mem_nil, or_false,
    not_or] at other
  rcases range with - | ⟨start, stop⟩ | ⟨- | -⟩
  · exact List.not_mem_nil
  · simp [serializeBlockRange, literal, notDecimal, other]
  · exact List.not_mem_nil
  · simp [serializeBlockRange, literal, other]

/-! ## Paths -/

/-- The path of the front page of a group. -/
def rootPath : Text := literal ['/']

/-- A path name is a word or the root path. -/
def IsPathName (name : Text) : Prop := IsWord name ∨ name = rootPath

/-- What a path name reads as. -/
def readName (name : Option Text) : Option Text :=
  name.filter fun text => text ≠ [] ∧ text ≠ rootPath

/-- The path of an entity, and a path name. -/
def namedPath (head eid : Text) (name : Option Text) : Text :=
  head ++ unit '/' :: eid ++ behind (unit '/') (truthy name)

theorem units_of_pathName {name : Option Text} (isName : ∀ text ∈ name, IsPathName text) :
    ∀ u ∈ behind (unit '/') (truthy name), isWordUnit u = true ∨ u = unit '/' := by
  intro u member
  rcases mem_behind.mp member with ⟨text, isText, isSlash | inText⟩
  · exact .inr isSlash
  · rcases isName text (Option.mem_filter_iff.mp isText).1 with word | rfl
    · exact .inl (word u inText)
    · exact .inr (List.mem_singleton.mp inText)

/-- Whatever separators are used, a path is the head, the entity and the path name. -/
theorem splitOnP_namedPath {separates : UInt16 → Bool} {head eid : Text} {name : Option Text}
    (slash : separates (unit '/') = true) (words : ∀ u, isWordUnit u = true → separates u = false)
    (isHead : IsWord head) (isEid : IsWord eid) (isName : ∀ text ∈ name, IsPathName text) :
    ∃ names, (namedPath head eid name).splitOnP separates = head :: eid :: names ∧
      truthy names[0]? = readName name := by
  have whole : ∀ {word : Text}, IsWord word → ∀ u ∈ word, separates u = false :=
    fun isWord u member => words u (isWord u member)
  have joined : ∀ (word rest : Text), IsWord word →
      (word ++ unit '/' :: rest).splitOnP separates = word :: rest.splitOnP separates :=
    fun word rest isWord => List.splitOnP_append_cons_of_forall_mem (whole isWord) _ slash rest
  have nameless : (head ++ unit '/' :: eid ++ []).splitOnP separates = [head, eid] := by
    rw [List.append_nil, joined head eid isHead, List.splitOnP_eq_singleton (whole isEid)]
  have named : ∀ text, (head ++ unit '/' :: eid ++ unit '/' :: text).splitOnP separates =
      head :: eid :: text.splitOnP separates := by
    intro text
    rw [List.append_assoc, List.cons_append, joined head _ isHead, joined eid _ isEid]
  cases name with
  | none => exact ⟨[], nameless, rfl⟩
  | some text =>
      by_cases isEmpty : text = []
      · rw [isEmpty]
        exact ⟨[], nameless, rfl⟩
      · have written : truthy (some text) = some text := if_pos (decide_eq_true isEmpty)
        rw [namedPath, written]
        refine ⟨text.splitOnP separates, named text, ?_⟩
        rcases isName text rfl with word | rfl
        · have notRoot : text ≠ rootPath := by
            rintro rfl
            exact absurd (word (unit '/') List.mem_cons_self) (by decide)
          rw [List.splitOnP_eq_singleton (whole word)]
          simp [readName, truthy, Option.filter_some, isEmpty, notRoot]
        · have pieces : rootPath.splitOnP separates = [[], []] :=
            joined [] [] fun _ member => absurd member List.not_mem_nil
          rw [pieces]
          exact rfl

/-- What the parts of a link read as. -/
def readLink (p : Platform) (type : EntityType) (eid : Text) (name query fragment : Option Text) :
    UnpackedHypermediaId where
  id := literal ['h', 'm', ':', '/', '/'] ++ namedPath type.text eid name ++
    behind (unit '?') query ++ behind (unit '#') fragment
  qid := createPlainId p type.text eid
  type := type.text
  eid := some eid
  groupPathName := readName name
  version := (parseQuery p query).get (literal ['v'])
  variants := parseVariantsQuery p ((parseQuery p query).get (literal ['b']))
  blockRef := (parseFragment fragment).map ParsedFragment.blockId
  blockRange := (parseFragment fragment).bind ParsedFragment.range
  hostname := none
  latest := (parseQuery p query).has (literal ['l'])
  scheme := literal ['h', 'm']

theorem unpackHmId_link (p : Platform) (type : EntityType) {eid : Text}
    {name query fragment : Option Text} (isEid : IsWord eid)
    (isName : ∀ text ∈ name, IsPathName text)
    (isQuery : ∀ text ∈ query, ∀ u ∈ text, isLinkUnit u = true)
    (isFragment : ∀ text ∈ fragment, unit '#' ∉ text ∧ unit '/' ∉ text) :
    unpackHmId p (readLink p type eid name query fragment).id =
      some (readLink p type eid name query fragment) := by
  have isPath : ∀ u ∈ namedPath type.text eid name, isWordUnit u = true ∨ u = unit '/' := by
    intro u member
    rcases List.mem_append.mp member with plain | named
    · rcases List.mem_append.mp plain with inType | member
      · exact .inl (isWord_text type u inType)
      · rcases List.mem_cons.mp member with isSlash | inEid
        · exact .inr isSlash
        · exact .inl (isEid u inEid)
    · exact units_of_pathName isName u named
  have nonempty : namedPath type.text eid name ≠ [] := by
    cases type <;> exact List.cons_ne_nil _ _
  have parsed := parseCustomURL_link p nonempty isPath isQuery isFragment
  have notWord : ∀ u, isWordUnit u = true → (u == unit '/') = false := by
    intro u word
    rw [beq_eq_false_iff_ne]
    rintro rfl
    cases word
  rcases splitOnP_namedPath (by decide) notWord (isWord_text type) isEid isName with
    ⟨names, pieces, isRead⟩
  rw [List.splitOn_eq_splitOnP, pieces] at parsed
  have known : inKeys type.text = some type.text := by cases type <;> exact rfl
  rw [unpackHmId, readLink, parsed, Option.bind_some, if_pos rfl, unpackParsed]
  simp only [List.getElem?_cons_zero, Option.bind_some, known, Option.map_some, zero_add,
    List.getElem?_cons_succ, isRead, written, Option.getD_some]

theorem createPlainId_eq {p : Platform} (documented : p.Documented) (type : EntityType)
    {eid : Text} (isEid : IsWord eid) :
    createPlainId p type.text eid = (readLink p type eid none none none).id := by
  rw [createPlainId, documented.urlText type eid fun u member => .inl (isEid u member)]
  simp [readLink, namedPath, truthy, behind]

/-! ## Variants -/

/-- The variants of a publication: a group with a path name, or an author. -/
inductive IsVariant (p : Platform) : PublicationVariant → Prop where
  | group {eid : Text} {pathName : Option Text} (isEid : IsWord eid)
      (isName : ∀ text ∈ pathName, IsPathName text) :
      IsVariant p (.group (createPlainId p EntityType.g.text eid) pathName)
  | author {author : Text} (isAuthor : IsWord author) : IsVariant p (.author (some author))

/-- What a variant reads as. -/
def readVariant : PublicationVariant → PublicationVariant
  | .group groupId pathName => .group groupId (readName pathName)
  | .author author => .author author

theorem parseVariant_variantText {p : Platform} (documented : p.Documented)
    {variant : PublicationVariant} (isVariant : IsVariant p variant) :
    ∃ text, variantText p variant = some text ∧ text ≠ [] ∧
      (∀ u ∈ text, isWordUnit u = true ∨ u = unit '/') ∧
      parseVariant p text = some (readVariant variant) := by
  have separates : ∀ u, isWordUnit u = true →
      (decide (u = unit ':' ∨ u = unit '/')) = false := by
    intro u word
    rw [decide_eq_false_iff_not]
    rintro (rfl | rfl) <;> cases word
  cases isVariant with
  | @group eid pathName isEid isName =>
      have isHead : IsWord (literal ['g']) := isWord_text .g
      rcases splitOnP_namedPath rfl separates isHead isEid isName with ⟨names, pieces, isRead⟩
      have unpacked : unpackHmId p (readLink p .g eid none none none).id = _ :=
        unpackHmId_link p .g isEid (by simp) (by simp) (by simp)
      rw [← createPlainId_eq documented .g isEid] at unpacked
      have nonempty : namedPath (literal ['g']) eid pathName ≠ [] := List.cons_ne_nil _ _
      refine ⟨namedPath (literal ['g']) eid pathName, ?_, nonempty, ?_, ?_⟩
      · rw [variantText, unpacked]
        exact rfl
      · intro u member
        rcases List.mem_append.mp member with plain | named
        · rcases List.mem_append.mp plain with inHead | member
          · exact .inl (isHead u inHead)
          · rcases List.mem_cons.mp member with isSlash | inEid
            · exact .inr isSlash
            · exact .inl (isEid u inEid)
        · exact units_of_pathName isName u named
      · rw [parseVariant, if_neg nonempty, pieces]
        simp only [List.headD_cons, ↓reduceIte, List.getElem?_cons_succ, List.getElem?_cons_zero,
          isRead, written, Option.getD_some, readVariant]
  | @author author isAuthor =>
      have pieces : (literal ['a', '/'] ++ author).splitOnP
          (fun u => u = unit ':' ∨ u = unit '/') = [literal ['a'], author] := by
        have isHead : IsWord (literal ['a']) := isWord_text .a
        rw [← List.splitOnP_eq_singleton fun u member => separates u (isAuthor u member)]
        exact List.splitOnP_append_cons_of_forall_mem
          (fun u member => separates u (isHead u member)) (unit '/') (by decide) author
      have nonempty : literal ['a', '/'] ++ author ≠ [] := List.cons_ne_nil _ _
      refine ⟨literal ['a', '/'] ++ author, rfl, nonempty, ?_, ?_⟩
      · intro u member
        rcases List.mem_append.mp member with inHead | inAuthor
        · rcases List.mem_cons.mp inHead with rfl | isSlash
          · exact .inl rfl
          · exact .inr (List.mem_singleton.mp isSlash)
        · exact .inl (isAuthor u inAuthor)
      · rw [parseVariant, if_neg nonempty, pieces]
        simp only [List.headD_cons]
        rw [if_neg (by decide), if_pos trivial]
        exact rfl

/-- What the names and the values of a query are made of. -/
def IsPlain (text : Text) : Prop :=
  ∀ u ∈ text, isWordUnit u = true ∨ u = unit '/' ∨ u = unit '.'

/-- The variants are the pieces of what is written for them. -/
theorem parseVariantsQuery_getVariantsParamValue {p : Platform} (documented : p.Documented)
    {variants : List PublicationVariant} (nonempty : variants ≠ [])
    (areVariants : ∀ variant ∈ variants, IsVariant p variant) :
    parseVariantsQuery p (some (getVariantsParamValue p variants)) =
        some (variants.map readVariant) ∧ IsPlain (getVariantsParamValue p variants) := by
  let text (variant : PublicationVariant) : Text := (variantText p variant).getD []
  have texts : ∀ variant ∈ variants, variantText p variant = some (text variant) ∧
      text variant ≠ [] ∧ (∀ u ∈ text variant, isWordUnit u = true ∨ u = unit '/') ∧
      parseVariant p (text variant) = some (readVariant variant) := by
    intro variant member
    rcases parseVariant_variantText documented (areVariants variant member) with
      ⟨found, isText, rest⟩
    have same : text variant = found := by
      show (variantText p variant).getD [] = found
      rw [isText, Option.getD_some]
    rw [same]
    exact ⟨isText, rest⟩
  have value : getVariantsParamValue p variants = [unit '.'].intercalate (variants.map text) := by
    rw [getVariantsParamValue, List.filterMap_congr fun variant member => (texts variant member).1]
    simp
  have pieces : (getVariantsParamValue p variants).splitOn (unit '.') = variants.map text := by
    rw [value]
    apply List.splitOn_intercalate
    · intro piece isPiece isDot
      rcases List.mem_map.mp isPiece with ⟨variant, member, rfl⟩
      rcases (texts variant member).2.2.1 _ isDot with word | isSlash
      · cases word
      · cases isSlash
    · simp [nonempty]
  constructor
  · have written : getVariantsParamValue p variants ≠ [] := by
      intro isEmpty
      rw [isEmpty] at pieces
      cases variants with
      | nil => exact nonempty rfl
      | cons variant rest =>
          exact (texts variant List.mem_cons_self).2.1 (List.cons.inj pieces).1.symm
    have parsed : (variants.map text).filterMap (parseVariant p) = variants.map readVariant := by
      have each : ∀ variant ∈ variants,
          (parseVariant p ∘ text) variant = some (readVariant variant) :=
        fun variant member => (texts variant member).2.2.2
      rw [List.filterMap_map, List.filterMap_congr each]
      simp
    rw [parseVariantsQuery, truthy, Option.filter_some, if_pos (decide_eq_true written),
      Option.bind_some, pieces, parsed]
    simp [nonempty]
  · intro u member
    rw [value] at member
    rcases mem_intercalate member with isDot | ⟨piece, isPiece, inPiece⟩
    · exact .inr (.inr isDot)
    · rcases List.mem_map.mp isPiece with ⟨variant, isVariant, rfl⟩
      exact ((texts variant isVariant).2.2.1 u inPiece).imp_right .inl

/-! ## Queries -/

/-- A parameter that needs no percent signs. -/
structure PlainEntry (entry : Text × Option Text) : Prop where
  named : entry.1 ≠ []
  name : IsPlain entry.1
  value : ∀ text ∈ entry.2, IsPlain text

theorem IsPlain.notMem {text : Text} (plain : IsPlain text) {u : UInt16}
    (other : isLinkUnit u = false ∨ u = unit '=' ∨ u = unit '&') : u ∉ text := by
  intro member
  rcases plain u member with word | rfl | rfl
  · rcases other with other | rfl | rfl
    · simp [isLinkUnit, word] at other
    · cases word
    · cases word
  · exact absurd other (by decide)
  · exact absurd other (by decide)

theorem IsPlain.decoded {p : Platform} (documented : p.Documented) {text : Text}
    (plain : IsPlain text) :
    p.percentDecode (text.map fun u => if u = unit '+' then unit ' ' else u) = text := by
  have noPlus : text.map (fun u => if u = unit '+' then unit ' ' else u) = text := by
    apply (List.map_congr_left fun u member => ?_).trans (List.map_id text)
    apply if_neg
    rintro rfl
    exact plain.notMem (.inl rfl) member
  rw [noPlus]
  apply documented.percentDecode
  intro u member
  constructor
  · rcases plain u member with word | rfl | rfl
    · simp only [isWordUnit, decide_eq_true_eq] at word
      rcases word with ⟨-, le⟩ | ⟨-, le⟩ | ⟨-, le⟩ | rfl | rfl
      · exact UInt16.lt_of_le_of_lt le (by decide)
      · exact UInt16.lt_of_le_of_lt le (by decide)
      · exact UInt16.lt_of_le_of_lt le (by decide)
      · decide
      · decide
    · decide
    · decide
  · rintro rfl
    exact plain.notMem (.inl rfl) member

theorem parseParameter_entryText {p : Platform} (documented : p.Documented)
    {entry : Text × Option Text} (plain : PlainEntry entry) :
    parseParameter p (entryText entry) = (entry.1, entry.2.getD []) := by
  have nameUnits : ∀ u ∈ entry.1, (u ≠ unit '=' : Bool) = true := by
    intro u member
    rw [decide_eq_true_eq]
    rintro rfl
    exact plain.name.notMem (.inr (.inl rfl)) member
  have parts : (entryText entry).takeWhile (· ≠ unit '=') = entry.1 ∧
      ((entryText entry).dropWhile (· ≠ unit '=')).drop 1 = entry.2.getD [] := by
    rcases entry with ⟨name, - | value⟩
    · have plainName : entryText (name, none) = name ++ [] := (List.append_nil name).symm
      rw [plainName, List.takeWhile_append_of_pos nameUnits,
        List.dropWhile_append_of_pos nameUnits]
      simp
    · have assigned : entryText (name, some value) = name ++ unit '=' :: value := rfl
      rw [assigned, List.takeWhile_append_of_pos nameUnits,
        List.dropWhile_append_of_pos nameUnits]
      simp
  have value : IsPlain (entry.2.getD []) := by
    cases isValue : entry.2 with
    | none => exact fun _ member => absurd member List.not_mem_nil
    | some text => exact plain.value text isValue
  rw [parseParameter, parts.1, parts.2]
  exact Prod.ext (plain.name.decoded documented) (value.decoded documented)

theorem PlainEntry.mem_entryText {entry : Text × Option Text} (plain : PlainEntry entry)
    {u : UInt16} (member : u ∈ entryText entry) :
    isWordUnit u = true ∨ u = unit '/' ∨ u = unit '.' ∨ u = unit '=' := by
  have ofPlain : ∀ {text : Text}, IsPlain text → u ∈ text →
      isWordUnit u = true ∨ u = unit '/' ∨ u = unit '.' ∨ u = unit '=' :=
    fun isPlain inText => (isPlain u inText).imp_right (Or.imp_right .inl)
  rcases entry with ⟨name, - | value⟩
  · exact ofPlain plain.name member
  · rcases List.mem_append.mp member with inName | member
    · exact ofPlain plain.name inName
    · rcases List.mem_cons.mp member with isSign | inValue
      · exact .inr (.inr (.inr isSign))
      · exact ofPlain (plain.value value rfl) inValue

/-- The text of some parameters. -/
def parameters (entries : List (Text × Option Text)) : Text :=
  [unit '&'].intercalate (entries.map entryText)

theorem isLinkUnit_parameters {entries : List (Text × Option Text)}
    (plain : ∀ entry ∈ entries, PlainEntry entry) :
    ∀ u ∈ parameters entries, isLinkUnit u = true := by
  intro u member
  rw [isLinkUnit, decide_eq_true_eq]
  rcases mem_intercalate member with rfl | ⟨piece, isPiece, inPiece⟩
  · decide
  · rcases List.mem_map.mp isPiece with ⟨entry, isEntry, rfl⟩
    rcases (plain entry isEntry).mem_entryText inPiece with word | rfl | rfl | rfl
    · exact .inl word
    · decide
    · decide
    · decide

theorem parseQuery_parameters {p : Platform} (documented : p.Documented)
    {entries : List (Text × Option Text)} (plain : ∀ entry ∈ entries, PlainEntry entry) :
    parseQuery p (truthy (some (parameters entries))) =
      entries.map fun entry => (entry.1, entry.2.getD []) := by
  have nonempty : ∀ entry ∈ entries, entryText entry ≠ [] := by
    intro entry isEntry isEmpty
    apply (plain entry isEntry).named
    rcases entry with ⟨name, - | value⟩
    · exact isEmpty
    · cases (List.append_eq_nil_iff.mp isEmpty).2
  have text : (truthy (some (parameters entries))).getD [] = parameters entries := by
    rw [truthy, Option.filter_some]
    split
    · exact rfl
    · next notNonempty =>
        rw [decide_eq_true_eq, not_not] at notNonempty
        exact notNonempty.symm
  have pieces : (parameters entries).splitOn (unit '&') = entries.map entryText ∨
      entries = [] := by
    by_cases none : entries = []
    · exact .inr none
    · apply Or.inl
      apply List.splitOn_intercalate
      · intro piece isPiece isAnd
        rcases List.mem_map.mp isPiece with ⟨entry, isEntry, rfl⟩
        rcases (plain entry isEntry).mem_entryText isAnd with word | isOther | isOther | isOther
        · cases word
        · cases isOther
        · cases isOther
        · cases isOther
      · simp [none]
  rw [parseQuery, text]
  rcases pieces with pieces | rfl
  · have kept : (entries.map entryText).filter (· ≠ []) = entries.map entryText := by
      apply List.filter_eq_self.mpr
      intro piece isPiece
      rcases List.mem_map.mp isPiece with ⟨entry, isEntry, rfl⟩
      exact decide_eq_true (nonempty entry isEntry)
    rw [pieces, kept, List.map_map]
    exact List.map_congr_left fun entry isEntry =>
      parseParameter_entryText documented (plain entry isEntry)
  · exact rfl

/-- A version is a list of blobs joined by dots. -/
def IsVersion (version : Text) : Prop := ∀ u ∈ version, isWordUnit u = true ∨ u = unit '.'

/-- What a link is made of. -/
structure Linkable (p : Platform) (eid : Text) (opts : LinkOptions) : Prop where
  eid : IsWord eid
  version : ∀ text ∈ opts.version, IsVersion text
  groupPathName : ∀ text ∈ opts.groupPathName, IsPathName text
  variants : ∀ variants ∈ opts.variants, ∀ variant ∈ variants, IsVariant p variant
  blockRef : ∀ text ∈ opts.blockRef, IsBlockRef text
  /-- A number from here on is written with an exponent. -/
  positions : ∀ start stop, opts.blockRange = some (.between start stop) →
    start < 10 ^ 21 ∧ stop < 10 ^ 21

section Linked

variable {p : Platform} {type : EntityType} {eid : Text} {opts : LinkOptions}

theorem Linkable.plainEntry (linkable : Linkable p eid opts) (documented : p.Documented) :
    ∀ entry ∈ queryEntries p opts, PlainEntry entry := by
  intro entry member
  rcases List.mem_append.mp member with member | isLatest
  · rcases List.mem_append.mp member with member | member
    · rcases Option.map_eq_some_iff.mp (Option.mem_toList.mp member) with
        ⟨version, isVersion, rfl⟩
      constructor
      · exact List.cons_ne_nil _ _
      · exact fun u member => .inl (List.mem_singleton.mp member ▸ rfl)
      · rintro _ ⟨⟩ u inVersion
        have given := linkable.version version (Option.mem_filter_iff.mp isVersion).1
        exact (given u inVersion).imp_right .inr
    · rcases Option.map_eq_some_iff.mp (Option.mem_toList.mp member) with
        ⟨variants, areVariants, rfl⟩
      have given := Option.mem_filter_iff.mp areVariants
      constructor
      · exact List.cons_ne_nil _ _
      · exact fun u member => .inl (List.mem_singleton.mp member ▸ rfl)
      · rintro _ ⟨⟩
        exact (parseVariantsQuery_getVariantsParamValue documented (of_decide_eq_true given.2)
          (linkable.variants variants given.1)).2
  · split at isLatest
    · rw [List.mem_singleton.mp isLatest]
      constructor
      · exact List.cons_ne_nil _ _
      · exact fun u member => .inl (List.mem_singleton.mp member ▸ rfl)
      · rintro _ ⟨⟩
    · cases isLatest

/-- The parameters give the version, the variants and the flag back. -/
theorem Linkable.parameters_read (linkable : Linkable p eid opts) (documented : p.Documented) :
    let query := parseQuery p (truthy (some (parameters (queryEntries p opts))))
    query.get (literal ['v']) = truthy opts.version ∧
      parseVariantsQuery p (query.get (literal ['b'])) =
        (opts.variants.filter (· ≠ [])).map (·.map readVariant) ∧
      query.has (literal ['l']) = opts.latest := by
  intro query
  have entries : query = (queryEntries p opts).map fun entry => (entry.1, entry.2.getD []) :=
    parseQuery_parameters documented (linkable.plainEntry documented)
  have keys : literal ['v'] ≠ literal ['b'] ∧ literal ['b'] ≠ literal ['v'] ∧
      literal ['v'] ≠ literal ['l'] ∧ literal ['b'] ≠ literal ['l'] ∧
      literal ['l'] ≠ literal ['v'] ∧ literal ['l'] ≠ literal ['b'] := by
    decide
  rw [entries, queryEntries]
  cases areVariants : opts.variants.filter (· ≠ []) with
  | none =>
      have absent : parseVariantsQuery p none = none := rfl
      cases truthy opts.version <;> cases opts.latest <;> simp [Query.get, Query.has, keys, absent]
  | some variants =>
      have given := Option.mem_filter_iff.mp areVariants
      have read := (parseVariantsQuery_getVariantsParamValue documented
        (of_decide_eq_true given.2) (linkable.variants variants given.1)).1
      cases truthy opts.version <;> cases opts.latest <;> simp [Query.get, Query.has, keys, read]

theorem serializeQueryString_eq (entries : List (Text × Option Text)) :
    serializeQueryString entries = behind (unit '?') (truthy (some (parameters entries))) := by
  by_cases isEmpty : parameters entries = []
  · rw [isEmpty]
    exact if_pos isEmpty
  · rw [truthy, Option.filter_some, if_pos (decide_eq_true isEmpty)]
    exact if_neg isEmpty

/-- The fragment of a link. -/
def fragmentText (opts : LinkOptions) : Option Text :=
  (truthy opts.blockRef).map (· ++ serializeBlockRange opts.blockRange)

theorem Linkable.createHmId_eq (linkable : Linkable p eid opts) (documented : p.Documented) :
    createHmId p type eid opts =
      (readLink p type eid opts.groupPathName (truthy (some (parameters (queryEntries p opts))))
        (fragmentText opts)).id := by
  have path : ∀ u ∈ eid ++ behind (unit '/') (truthy opts.groupPathName),
      isWordUnit u = true ∨ u = unit '/' := by
    intro u member
    rcases List.mem_append.mp member with inEid | inName
    · exact .inl (linkable.eid u inEid)
    · exact units_of_pathName linkable.groupPathName u inName
  have url := documented.urlText type _ path
  have joined : literal ['h', 'm', ':', '/', '/'] ++ type.text ++
      unit '/' :: (eid ++ behind (unit '/') (truthy opts.groupPathName)) =
        literal ['h', 'm', ':', '/', '/'] ++ namedPath type.text eid opts.groupPathName := by
    rw [namedPath, List.append_assoc, List.append_assoc, List.cons_append]
  have fragment : ((truthy opts.blockRef).map fun blockRef =>
      unit '#' :: blockRef ++ serializeBlockRange opts.blockRange).getD [] =
        behind (unit '#') (fragmentText opts) := by
    rw [behind, fragmentText, Option.map_map]
    exact rfl
  rw [joined] at url
  rw [createHmId, serializeQueryString_eq, fragment]
  exact congrArg (· ++ _ ++ _) url

theorem Linkable.isFragment (linkable : Linkable p eid opts) :
    ∀ text ∈ fragmentText opts, unit '#' ∉ text ∧ unit '/' ∉ text := by
  intro text isText
  rcases Option.map_eq_some_iff.mp isText with ⟨ref, isRef, rfl⟩
  rcases linkable.blockRef ref (Option.mem_filter_iff.mp isRef).1 with ⟨-, noHash, -, noSlash⟩
  rw [List.mem_append, List.mem_append, not_or, not_or]
  constructor
  · exact ⟨noHash, notMem_serializeBlockRange _ rfl (by decide)⟩
  · exact ⟨noSlash, notMem_serializeBlockRange _ rfl (by decide)⟩

/-- A link reads as its parts do. -/
theorem Linkable.unpackHmId_createHmId (linkable : Linkable p eid opts)
    (documented : p.Documented) :
    unpackHmId p (createHmId p type eid opts) =
      some (readLink p type eid opts.groupPathName
        (truthy (some (parameters (queryEntries p opts)))) (fragmentText opts)) := by
  have isQuery : ∀ text ∈ truthy (some (parameters (queryEntries p opts))),
      ∀ u ∈ text, isLinkUnit u = true := by
    intro text isText
    rw [← Option.some.inj (Option.mem_filter_iff.mp isText).1]
    exact isLinkUnit_parameters (linkable.plainEntry documented)
  rw [linkable.createHmId_eq documented]
  exact unpackHmId_link p type linkable.eid linkable.groupPathName isQuery linkable.isFragment

/-! ## What links keep -/

/-- A path name that is written, and not as the root. -/
def IsWrittenName (name : Option Text) : Prop :=
  ∀ text ∈ name, text ≠ [] ∧ text ≠ rootPath

/-- Nothing is written like something else. -/
structure Unambiguous (opts : LinkOptions) : Prop where
  version : opts.version ≠ some []
  groupPathName : IsWrittenName opts.groupPathName
  variants : opts.variants ≠ some []
  pathNames : ∀ variants ∈ opts.variants, ∀ groupId pathName,
    .group groupId pathName ∈ variants → IsWrittenName pathName
  blockRange : ∀ range ∈ opts.blockRange, range ≠ .expanded false ∧
    ∃ ref, opts.blockRef = some ref ∧ ref.all (! isWhiteSpace ·) = true

/-- The link to an entity reads as the entity and the options. -/
def RoundTrips (p : Platform) (type : EntityType) (eid : Text) (opts : LinkOptions) : Prop :=
  ∃ unpacked, unpackHmId p (createHmId p type eid opts) = some unpacked ∧
    unpacked.type = type.text ∧ unpacked.eid = some eid ∧ unpacked.version = opts.version ∧
    unpacked.groupPathName = opts.groupPathName ∧ unpacked.variants = opts.variants ∧
    unpacked.latest = opts.latest ∧ unpacked.blockRef = opts.blockRef ∧
    unpacked.blockRange = opts.blockRange

theorem filter_eq_self_iff {α : Type} {keeps : α → Bool} {value : Option α} :
    value.filter keeps = value ↔ ∀ a ∈ value, keeps a = true := by
  cases value with
  | none => simp
  | some a => simp [Option.filter_some]

theorem readName_eq_self_iff {name : Option Text} :
    readName name = name ↔ IsWrittenName name := by
  rw [readName, filter_eq_self_iff, IsWrittenName]
  simp only [decide_eq_true_eq]

theorem truthy_eq_self_iff {text : Option Text} : truthy text = text ↔ text ≠ some [] := by
  rw [truthy, filter_eq_self_iff]
  cases text <;> simp

theorem readVariant_eq_self_iff {variant : PublicationVariant} :
    readVariant variant = variant ↔
      ∀ groupId pathName, .group groupId pathName = variant → IsWrittenName pathName := by
  cases variant with
  | group groupId pathName =>
      rw [readVariant, PublicationVariant.group.injEq, readName_eq_self_iff]
      constructor
      · rintro ⟨-, isWritten⟩ _ _ ⟨⟩
        exact isWritten
      · intro isWritten
        exact ⟨rfl, isWritten groupId pathName rfl⟩
  | author author => simp [readVariant]

theorem readVariants_eq_self_iff {variants : Option (List PublicationVariant)} :
    (variants.filter (· ≠ [])).map (·.map readVariant) = variants ↔
      variants ≠ some [] ∧ ∀ list ∈ variants, ∀ groupId pathName,
        .group groupId pathName ∈ list → IsWrittenName pathName := by
  cases variants with
  | none => simp
  | some list =>
      by_cases isEmpty : list = []
      · simp [isEmpty, Option.filter_some]
      · have each : list.map readVariant = list ↔
            ∀ variant ∈ list, readVariant variant = variant := by
          have images := List.map_inj_left (l := list) (f := readVariant) (g := id)
          rw [List.map_id] at images
          exact images
        rw [Option.filter_some, if_pos (decide_eq_true isEmpty), Option.map_some,
          Option.some.injEq, each]
        constructor
        · intro same
          refine ⟨fun none => isEmpty (Option.some.inj none), ?_⟩
          rintro _ ⟨⟩ groupId pathName member
          exact readVariant_eq_self_iff.mp (same _ member) groupId pathName rfl
        · rintro ⟨-, isWritten⟩ variant member
          apply readVariant_eq_self_iff.mpr
          rintro groupId pathName rfl
          exact isWritten list rfl groupId pathName member

theorem fragment_eq_self_iff {blockRef : Option Text} {range : Option BlockRange}
    (isRef : ∀ ref ∈ blockRef, IsBlockRef ref) :
    ((parseFragment ((truthy blockRef).map (· ++ serializeBlockRange range))).map
          ParsedFragment.blockId = blockRef ∧
        (parseFragment ((truthy blockRef).map (· ++ serializeBlockRange range))).bind
          ParsedFragment.range = range) ↔
      ∀ r ∈ range, r ≠ .expanded false ∧
        ∃ ref, blockRef = some ref ∧ ref.all (! isWhiteSpace ·) = true := by
  cases blockRef with
  | none => cases range <;> simp [truthy, parseFragment]
  | some ref =>
      have eight := (isRef ref rfl).1
      have nonempty : ref ≠ [] := by
        rintro rfl
        cases eight
      rw [truthy, Option.filter_some, if_pos (decide_eq_true nonempty), Option.map_some,
        parseFragment_blockRef range eight]
      by_cases solid : ref.all (! isWhiteSpace ·) = true
      · rw [if_pos solid, Option.map_some, Option.bind_some, filter_eq_self_iff]
        have given : ∃ r, some ref = some r ∧ r.all (! isWhiteSpace ·) = true :=
          ⟨ref, rfl, solid⟩
        simp only [given, and_true, true_and, decide_eq_true_eq]
      · rw [if_neg solid, Option.map_some, Option.bind_some]
        have missing : ¬ ∃ r, some ref = some r ∧ r.all (! isWhiteSpace ·) = true := by
          rintro ⟨_, ⟨⟩, solid'⟩
          exact solid solid'
        simp only [missing, and_false]
        cases range <;> simp [serializeBlockRange]

/--
A link reads as what it is made of exactly if no part of it is written like another one: no
text and no list is empty, no path name is the root path, and a range is between two positions or
expanded, behind a block reference without white space.
-/
theorem links_round_trip_iff (documented : p.Documented) (linkable : Linkable p eid opts) :
    RoundTrips p type eid opts ↔ Unambiguous opts := by
  rcases linkable.parameters_read documented with ⟨version, variants, latest⟩
  have fragment := @fragment_eq_self_iff opts.blockRef opts.blockRange linkable.blockRef
  rw [RoundTrips, linkable.unpackHmId_createHmId documented]
  constructor
  · rintro ⟨_, ⟨⟩, -, -, sameVersion, sameName, sameVariants, -, sameRef, sameRange⟩
    have keptVariants := readVariants_eq_self_iff.mp (variants.symm.trans sameVariants)
    exact {
      version := truthy_eq_self_iff.mp (version.symm.trans sameVersion)
      groupPathName := readName_eq_self_iff.mp sameName
      variants := keptVariants.1
      pathNames := keptVariants.2
      blockRange := fragment.mp ⟨sameRef, sameRange⟩ }
  · intro unambiguous
    have sameFragment := fragment.mpr unambiguous.blockRange
    refine ⟨_, rfl, rfl, rfl, ?_, ?_, ?_, latest, sameFragment⟩
    · exact version.trans (truthy_eq_self_iff.mpr unambiguous.version)
    · exact readName_eq_self_iff.mpr unambiguous.groupPathName
    · exact variants.trans
        (readVariants_eq_self_iff.mpr ⟨unambiguous.variants, unambiguous.pathNames⟩)

end Linked

/-- Links in which nothing is to be encoded. -/
def plainPlatform : Platform where
  urlText := id
  percentDecode := id

theorem plainPlatform_documented : plainPlatform.Documented where
  urlText := fun _ _ _ => rfl
  percentDecode := fun _ _ => rfl

/-- The id of a group. -/
def sampleGroup : Text := createPlainId plainPlatform EntityType.g.text (literal ['x', '_', '7'])

/-- A publication of an author in a group, and a part of one of its blocks. -/
def sampleOptions (pathName : Text) : LinkOptions where
  version := some (literal ['b', 'a', '.', 'f', '2'])
  blockRef := some (literal ['a', '-', 'b', '-', '[', '1', ':', '+'])
  blockRange := some (.between 0 120)
  groupPathName := none
  variants := some [.author (some (literal ['z', '6'])), .group sampleGroup (some pathName)]
  latest := true

theorem sampleOptions_linkable {pathName : Text} (isName : IsPathName pathName) :
    Linkable plainPlatform (literal ['D', '0', 'c']) (sampleOptions pathName) := by
  constructor
  · exact List.all_eq_true.mp rfl
  · rintro _ ⟨⟩ u member
    have every : (literal ['b', 'a', '.', 'f', '2']).all
        (fun u => isWordUnit u ∨ u = unit '.') = true := rfl
    exact of_decide_eq_true (List.all_eq_true.mp every u member)
  · rintro _ ⟨⟩
  · rintro _ ⟨⟩ variant member
    rcases List.mem_cons.mp member with rfl | member
    · apply IsVariant.author
      exact List.all_eq_true.mp rfl
    · rw [List.mem_singleton.mp member]
      apply IsVariant.group
      · exact List.all_eq_true.mp rfl
      · rintro _ ⟨⟩
        exact isName
  · rintro _ ⟨⟩
    unfold IsBlockRef
    decide
  · rintro _ _ ⟨⟩
    norm_num

theorem links_round_trip_iff_namedPath :
    RoundTrips plainPlatform .d (literal ['D', '0', 'c']) (sampleOptions (literal ['h', 'i'])) := by
  apply (links_round_trip_iff plainPlatform_documented (sampleOptions_linkable ?_)).mpr
  · constructor
    · decide
    · rintro _ ⟨⟩
    · decide
    · rintro _ ⟨⟩ groupId pathName member
      rcases List.mem_cons.mp member with isAuthor | isGroup
      · cases isAuthor
      · cases List.mem_singleton.mp isGroup
        rintro _ ⟨⟩
        decide
    · rintro _ ⟨⟩
      refine ⟨by decide, _, rfl, by decide⟩
  · apply Or.inl
    exact List.all_eq_true.mp rfl

/-- The root path of a group reads as no path name. -/
theorem root_path_does_not_round_trip :
    Linkable plainPlatform (literal ['D', '0', 'c']) (sampleOptions rootPath) ∧
      ¬ RoundTrips plainPlatform .d (literal ['D', '0', 'c']) (sampleOptions rootPath) := by
  have read : (unpackHmId plainPlatform (createHmId plainPlatform .d (literal ['D', '0', 'c'])
      (sampleOptions rootPath))).bind UnpackedHypermediaId.variants =
        some [.author (some (literal ['z', '6'])), .group sampleGroup none] := by
    decide
  constructor
  · exact sampleOptions_linkable (.inr rfl)
  · rintro ⟨unpacked, isUnpacked, -, -, -, -, sameVariants, -⟩
    rw [isUnpacked, Option.bind_some, sameVariants] at read
    exact absurd read (by decide)

end Mintter.Frontend
