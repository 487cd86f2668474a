import Mintter.Frontend.InlineContent

/-!
# Decoded inline content

What a block shows is said per unit of its text (`Block.outlineAt`): a link or an embed stands at
the start of its range, the units of its range belong to it, and every other unit has the styles
of the annotations that cover it.

`toHMInlineContent` shows what the block shows when its links, ranges and embeds have one range
each inside the text and do not overlap.  The styles may overlap these and each other in any
way, because every slice is painted with all annotations.
-/

namespace Mintter.Frontend

open Foundation

/-! ## What a block shows -/

/-- What a styled text shows, unit by unit. -/
abbrev StyledGlyphs := List (Glyph UInt16 Styles Empty)

/-- The units of the text with their styles, the links with those of their content, and the
embeds. -/
abbrev Outline := List (Glyph UInt16 Styles (EditorObject StyledGlyphs))

/-- Change what a link holds. -/
def EditorObject.map {Content Content' : Type} (f : Content → Content') :
    EditorObject Content → EditorObject Content'
  | .link type href content => .link type href (f content)
  | .inlineEmbed ref => .inlineEmbed ref

/-- What a reader sees of inlines. -/
def outline (inlines : List HMInlineContent) : Outline :=
  (glyphs inlines).map (Glyph.map (EditorObject.map glyphs))

/-- The units of a range of the text, with their indexes. -/
def Block.span (block : Block) (start stop : Nat) : List (UInt16 × Nat) :=
  ((block.text.take stop).drop start).zipIdx start

/-- The unit of a text, in the styles that the annotations give it. -/
def Block.glyphAt {β : Type} (block : Block) (cell : UInt16 × Nat) : Glyph UInt16 Styles β :=
  .char cell.1 (stylesAt block.annotations cell.2)

/-- What a link, a range or an embed shows. -/
def Block.objectOf (block : Block) (mark : Annotation) :
    Option (EditorObject StyledGlyphs) :=
  EditorObject.ofAnnotated mark
    ((block.span mark.start.toNat mark.stop.toNat).map block.glyphAt)

/--
What a block shows at one unit: an object that starts there, nothing inside of one, or the unit.
-/
def Block.outlineAt (block : Block) (cell : UInt16 × Nat) : Outline :=
  match block.linkEmbedAndRangeAnnotations.find? (·.start = (cell.2 : Int)) with
  | some mark => (block.objectOf mark).toList.map .object
  | none =>
      if ∃ mark ∈ block.linkEmbedAndRangeAnnotations, mark.Covers cell.2 then []
      else [block.glyphAt cell]

/-- What a block shows. -/
def Block.outline (block : Block) : Outline :=
  block.text.zipIdx.flatMap block.outlineAt

/-- The links, ranges and embeds of the block have one range each, inside the text, and do not
overlap.  Every other annotation has a style. -/
structure Block.Annotated (block : Block) : Prop where
  starts : ∀ mark ∈ block.linkEmbedAndRangeAnnotations,
    mark.starts = [mark.start]
  ends : ∀ mark ∈ block.linkEmbedAndRangeAnnotations, mark.ends = [mark.stop]
  inside : ∀ mark ∈ block.linkEmbedAndRangeAnnotations,
    0 ≤ mark.start ∧ mark.start < mark.stop ∧
      mark.stop ≤ block.text.length
  disjoint : block.linkEmbedAndRangeAnnotations.Pairwise fun a b =>
    a.stop ≤ b.start ∨ b.stop ≤ a.start
  styled : ∀ mark ∈ block.annotations, ¬ mark.IsSpecial →
    annotationStyle mark ≠ ∅

/-- No text is empty and none could be joined with the next, also in the links. -/
structure Tidy (inlines : List HMInlineContent) : Prop where
  separated : Separated inlines
  links : ∀ type href content, .object (.link type href content) ∈ inlines → Separated content

/-! ## Slices -/

theorem Annotation.covers_shifted (mark : Annotation) (start i : Int) :
    (mark.shifted start).Covers i ↔ mark.Covers (i + start) := by
  simp only [Covers, shifted, List.zip_map, List.mem_map, Prod.map]
  constructor
  · rintro ⟨_, ⟨range, member, rfl⟩, bounds⟩
    exact ⟨range, member, by omega⟩
  · rintro ⟨range, member, bounds⟩
    exact ⟨_, ⟨range, member, rfl⟩, by omega⟩

theorem stylesAt_shifted (annotations : List Annotation) (start i : Int) :
    stylesAt (annotations.map (·.shifted start)) i = stylesAt annotations (i + start) := by
  ext style
  simp only [stylesAt, Finset.mem_filter, List.mem_map, exists_exists_and_eq_and,
    Annotation.covers_shifted]
  rfl

/-- Either every index of a range is covered, or the covered ones have styles. -/
def Block.Whole (block : Block) (start stop : Int) : Prop :=
  (∀ i, start ≤ i ∧ i < stop → ∃ mark ∈ block.annotations, mark.Covers i) ∨
    ∀ i, start ≤ i ∧ i < stop → (∃ mark ∈ block.annotations, mark.Covers i) →
      stylesAt block.annotations i ≠ ∅

theorem slice_eq (text : List UInt16) {start stop : Nat} (ordered : start ≤ stop)
    (inside : stop ≤ text.length) : slice text start stop = (text.take stop).drop start := by
  rw [slice, sliceIndex, sliceIndex, if_neg (by omega), if_neg (by omega), Int.toNat_natCast,
    Int.toNat_natCast, min_eq_left inside, min_eq_left (ordered.trans inside), List.take_drop]
  congr 2
  omega

theorem span_append (block : Block) {start mid stop : Nat} (before : start ≤ mid)
    (after : mid ≤ stop) (inside : stop ≤ block.text.length) :
    block.span start mid ++ block.span mid stop = block.span start stop := by
  have cut : (block.text.take stop).drop start =
      (block.text.take mid).drop start ++ (block.text.take stop).drop mid := by
    conv_lhs => rw [← List.take_append_drop mid (block.text.take stop), List.take_take,
      min_eq_left after]
    rw [List.drop_append_of_le_length]
    simp
    omega
  rw [Block.span, Block.span, Block.span, cut, List.zipIdx_append]
  congr 2
  simp
  omega

theorem mem_span {block : Block} {start stop : Nat} {cell : UInt16 × Nat}
    (member : cell ∈ block.span start stop) : start ≤ cell.2 ∧ cell.2 < stop := by
  have bounds := List.mem_zipIdx member
  simp only [List.length_drop, List.length_take] at bounds
  omega

theorem span_cons (block : Block) {start stop : Nat} (ordered : start < stop)
    (inside : stop ≤ block.text.length) :
    ∃ unit, block.span start stop = (unit, start) :: block.span (start + 1) stop := by
  have first : start < (block.text.take stop).length := by
    simp
    omega
  exact ⟨_, by rw [Block.span, List.drop_eq_getElem_cons first, List.zipIdx_cons, Block.span]⟩

theorem getSlicedContent_spec {block : Block} {start stop : Nat} (ordered : start ≤ stop)
    (inside : stop ≤ block.text.length) (whole : block.Whole start stop) :
    Separated (getSlicedContent block start stop) ∧
      glyphs (getSlicedContent block start stop) = (block.span start stop).map block.glyphAt := by
  have sliced := slice_eq block.text ordered inside
  rw [getSlicedContent, sliced]
  have painted := partialBlockToStyledText_spec
    { text := (block.text.take stop).drop start
      annotations := block.annotations.map (·.shifted start) }
    (by
      apply comparesOn_of
      simp only [List.mem_map, exists_exists_and_eq_and, Annotation.covers_shifted,
        stylesAt_shifted, List.length_drop, List.length_take]
      rcases whole with covered | styled
      · exact Or.inl fun i bounds => covered (i + start) (by omega)
      · exact Or.inr fun i bounds => styled (i + start) (by omega))
  constructor
  · exact painted.1
  · apply painted.2.trans
    rw [Block.span]
    conv_rhs => rw [List.zipIdx_eq_map_add, List.map_map]
    apply List.map_congr_left
    intro cell _
    simp [Block.glyphAt, stylesAt_shifted, Int.add_comm]

/-! ## What stands at an index -/

theorem Block.Annotated.apart {block : Block} (annotated : block.Annotated) {a b : Annotation}
    (memA : a ∈ block.linkEmbedAndRangeAnnotations)
    (memB : b ∈ block.linkEmbedAndRangeAnnotations) (differ : a ≠ b) :
    a.stop ≤ b.start ∨ b.stop ≤ a.start := by
  have : Std.Symm fun a b : Annotation => a.stop ≤ b.start ∨ b.stop ≤ a.start :=
    ⟨fun _ _ => Or.symm⟩
  exact annotated.disjoint.forall memA memB differ

theorem Block.Annotated.eq_of_start {block : Block} (annotated : block.Annotated)
    {a b : Annotation} (memA : a ∈ block.linkEmbedAndRangeAnnotations)
    (memB : b ∈ block.linkEmbedAndRangeAnnotations) (same : a.start = b.start) : a = b := by
  by_contra differ
  have apart := annotated.apart memA memB differ
  have insideA := annotated.inside a memA
  have insideB := annotated.inside b memB
  omega

theorem Block.Annotated.covers_iff {block : Block} (annotated : block.Annotated)
    {mark : Annotation} (member : mark ∈ block.linkEmbedAndRangeAnnotations) (i : Int) :
    mark.Covers i ↔ mark.start ≤ i ∧ i < mark.stop := by
  rw [ Annotation.Covers, annotated.starts mark member, annotated.ends mark member]
  simp

/-- Between the links, ranges and embeds stands text. -/
theorem outlineAt_of_free {block : Block} (annotated : block.Annotated) {cell : UInt16 × Nat}
    (free : ∀ mark ∈ block.linkEmbedAndRangeAnnotations,
      mark.stop ≤ cell.2 ∨ (cell.2 : Int) < mark.start) :
    block.outlineAt cell = [block.glyphAt cell] := by
  have none_starts : block.linkEmbedAndRangeAnnotations.find? (·.start = (cell.2 : Int)) = none := by
    rw [List.find?_eq_none]
    intro mark member
    have bounds := annotated.inside mark member
    have apart := free mark member
    simp only [decide_eq_true_eq]
    omega
  rw [Block.outlineAt, none_starts]
  simp only
  rw [if_neg]
  rintro ⟨mark, member, covers⟩
  have covered := (annotated.covers_iff member _).mp covers
  have apart := free mark member
  omega

theorem flatMap_outlineAt_of_free {block : Block} (annotated : block.Annotated) {start stop : Nat}
    (free : ∀ mark ∈ block.linkEmbedAndRangeAnnotations,
      mark.stop ≤ start ∨ (stop : Int) ≤ mark.start) :
    (block.span start stop).flatMap block.outlineAt = (block.span start stop).map block.glyphAt := by
  rw [← List.flatMap_pure_eq_map]
  apply List.flatMap_congr
  intro cell member
  have bounds := mem_span member
  apply outlineAt_of_free annotated
  intro mark special
  have apart := free mark special
  omega

theorem whole_of_free {block : Block} (annotated : block.Annotated) {start stop : Nat}
    (free : ∀ mark ∈ block.linkEmbedAndRangeAnnotations,
      mark.stop ≤ start ∨ (stop : Int) ≤ mark.start) : block.Whole start stop := by
  right
  rintro i bounds ⟨mark, member, covers⟩
  by_cases special : mark.IsSpecial
  · have inside : mark ∈ block.linkEmbedAndRangeAnnotations := by
      simp [Block.linkEmbedAndRangeAnnotations, member, special]
    have covered := (annotated.covers_iff inside _).mp covers
    have apart := free mark inside
    omega
  · rcases Finset.nonempty_iff_ne_empty.mpr (annotated.styled mark member special)
      with ⟨style, styled⟩
    apply Finset.nonempty_iff_ne_empty.mp
    exact ⟨style, by simpa [stylesAt] using ⟨mark, member, covers, styled⟩⟩

theorem whole_of_special {block : Block} (annotated : block.Annotated) {mark : Annotation}
    (member : mark ∈ block.linkEmbedAndRangeAnnotations) :
    block.Whole mark.start mark.stop := by
  left
  intro i bounds
  exact ⟨mark, (List.mem_filter.mp member).1, (annotated.covers_iff member i).mpr bounds⟩

/-- A link, a range or an embed stands once for all units of its range. -/
theorem flatMap_outlineAt_of_special {block : Block} (annotated : block.Annotated)
    {mark : Annotation} (member : mark ∈ block.linkEmbedAndRangeAnnotations)
    {start stop : Nat} (atStart : mark.start = start) (atStop : mark.stop = stop) :
    (block.span start stop).flatMap block.outlineAt =
      (block.objectOf mark).toList.map .object := by
  have bounds := annotated.inside mark member
  rcases span_cons block (show start < stop by omega) (by omega) with ⟨unit, cells⟩
  have found : block.linkEmbedAndRangeAnnotations.find? (·.start = (start : Int)) =
      some mark := by
    cases search : block.linkEmbedAndRangeAnnotations.find? (·.start = (start : Int)) with
    | none => simpa [atStart] using List.find?_eq_none.mp search mark member
    | some other =>
        have otherStart : other.start = (start : Int) := by simpa using List.find?_some search
        rw [annotated.eq_of_start (List.mem_of_find?_eq_some search) member
          (otherStart.trans atStart.symm)]
  have first : block.outlineAt (unit, start) = (block.objectOf mark).toList.map .object := by
    rw [Block.outlineAt, found]
  have later : (block.span (start + 1) stop).flatMap block.outlineAt = [] := by
    rw [List.flatMap_eq_nil_iff]
    intro cell inside
    have cellBounds := mem_span inside
    have none_starts : block.linkEmbedAndRangeAnnotations.find? (·.start = (cell.2 : Int)) =
        none := by
      rw [List.find?_eq_none]
      intro other special
      have otherBounds := annotated.inside other special
      by_cases same : other = mark
      · simp only [same, atStart, decide_eq_true_eq]
        omega
      · have apart := annotated.apart special member same
        simp only [decide_eq_true_eq]
        omega
    rw [Block.outlineAt, none_starts]
    simp only
    rw [if_pos]
    exact ⟨mark, member, (annotated.covers_iff member _).mpr (by omega)⟩
  rw [cells, List.flatMap_cons, first, later, List.append_nil]

/-! ## The inlines -/

@[simp]
theorem outline_append (front back : List HMInlineContent) :
    outline (front ++ back) = outline front ++ outline back := by
  simp [outline]

theorem outline_plain (texts : List StyledText) :
    outline (texts.map Piece.plain) = (glyphs texts).map (Glyph.map Empty.elim) := by
  simp only [outline, Piece.plain, glyphs_map, List.map_map]
  apply List.map_congr_left
  intro glyph _
  cases glyph with
  | char unit style => rfl
  | object impossible => exact impossible.elim

theorem tidy_plain {texts : List StyledText} (separated : Separated texts) :
    Tidy (texts.map Piece.plain) where
  separated := separated.map Empty.elim
  links := by
    intro type href content member
    rcases List.mem_map.mp member with ⟨piece, _, equality⟩
    cases piece with
    | run text style => simp [Piece.plain, Piece.map] at equality
    | object impossible => exact impossible.elim

theorem Tidy.append_object {front back : List HMInlineContent} (before : Tidy front)
    (object : EditorObject (List StyledText))
    (content_separated : ∀ type href content, object = .link type href content → Separated content)
    (after : Tidy back) : Tidy (front ++ .object object :: back) where
  separated := before.separated.append_object object after.separated
  links := by
    intro type href content member
    rcases List.mem_append.mp member with left | right
    · exact before.links type href content left
    · rcases List.mem_cons.mp right with here | later
      · exact content_separated type href content (by simpa using here.symm)
      · exact after.links type href content later

/-- A slice without links, ranges and embeds. -/
theorem slice_of_free {block : Block} (annotated : block.Annotated) {start stop : Nat}
    (ordered : start ≤ stop) (inside : stop ≤ block.text.length)
    (free : ∀ mark ∈ block.linkEmbedAndRangeAnnotations,
      mark.stop ≤ start ∨ (stop : Int) ≤ mark.start) :
    Separated (getSlicedContent block start stop) ∧
      outline ((getSlicedContent block start stop).map Piece.plain) =
        (block.span start stop).flatMap block.outlineAt := by
  have sliced := getSlicedContent_spec ordered inside (whole_of_free annotated free)
  constructor
  · exact sliced.1
  · rw [outline_plain, sliced.2, flatMap_outlineAt_of_free annotated free, List.map_map]
    rfl

theorem EditorObject.ofAnnotation_map {Content Content' : Type} (f : Content → Content')
    (mark : Annotation) (content : Content) :
    (ofAnnotated mark content).map (EditorObject.map f) =
      ofAnnotated mark (f content) := by
  rw [ofAnnotated, ofAnnotated]
  cases mark.type <;> rfl

theorem EditorObject.ofAnnotation_of_special {Content : Type} {mark : Annotation}
    (special : mark.IsSpecial) (content : Content) :
    ∃ object, ofAnnotated mark content = some object ∧
      ∀ type href inner, object = .link type href inner → inner = content := by
  rw [ofAnnotated]
  rcases special with link | embed | range
  · rw [link]
    exact ⟨_, rfl, by simp⟩
  · rw [embed]
    exact ⟨_, rfl, by simp⟩
  · rw [range]
    exact ⟨_, rfl, by simp⟩

/-- One link, range or embed and the text behind it. -/
theorem inlinesFrom_cons {block : Block} (annotated : block.Annotated) {mark : Annotation}
    (member : mark ∈ block.linkEmbedAndRangeAnnotations) {start stop contentEnd : Nat}
    (atStart : mark.start = start) (atStop : mark.stop = stop)
    {rest : List Annotation} (atEnd : nonAnnotationContentEnd block rest = contentEnd) :
    ∃ object, inlinesFrom block start (mark :: rest) =
        .object object :: ((getSlicedContent block stop contentEnd).map Piece.plain ++
          inlinesFrom block contentEnd rest) ∧
      (∀ type href content, object = .link type href content → Separated content) ∧
      [.object (object.map glyphs)] = (block.span start stop).flatMap block.outlineAt := by
  have bounds := annotated.inside mark member
  have annotationEnd : (start : Int) + (mark.stop - mark.start) = stop := by omega
  have special : mark.IsSpecial := by simpa using (List.mem_filter.mp member).2
  have whole : block.Whole start stop := by
    rw [← atStart, ← atStop]
    exact whole_of_special annotated member
  have content := getSlicedContent_spec (show start ≤ stop by omega) (by omega) whole
  rcases EditorObject.ofAnnotation_of_special special (getSlicedContent block start stop)
    with ⟨object, isObject, holds⟩
  have outlined := EditorObject.ofAnnotation_map glyphs mark
    (getSlicedContent block start stop)
  rw [isObject, content.2] at outlined
  constructor
  constructor
  · rw [inlinesFrom]
    simp only [atEnd, annotationEnd, isObject]
    rfl
  · constructor
    · intro type href inner equality
      rw [holds type href inner equality]
      exact content.1
    · rw [flatMap_outlineAt_of_special annotated member atStart atStop, Block.objectOf, atStart,
        atStop, Int.toNat_natCast, Int.toNat_natCast, ← outlined]
      rfl

/-- The inlines from one annotation on, given those behind it. -/
theorem inlinesFrom_of_tail {block : Block} (annotated : block.Annotated) {mark : Annotation}
    (member : mark ∈ block.linkEmbedAndRangeAnnotations) {start stop contentEnd : Nat}
    (atStart : mark.start = start) (atStop : mark.stop = stop)
    {rest : List Annotation} (atEnd : nonAnnotationContentEnd block rest = contentEnd)
    (tidy : Tidy ((getSlicedContent block stop contentEnd).map Piece.plain ++
      inlinesFrom block contentEnd rest))
    (shown : outline ((getSlicedContent block stop contentEnd).map Piece.plain ++
      inlinesFrom block contentEnd rest) =
        (block.span stop block.text.length).flatMap block.outlineAt)
    {front : List HMInlineContent} (before : Tidy front) :
    Tidy (front ++ inlinesFrom block start (mark :: rest)) ∧
      outline (inlinesFrom block start (mark :: rest)) =
        (block.span start block.text.length).flatMap block.outlineAt := by
  have bounds := annotated.inside mark member
  rcases inlinesFrom_cons annotated member atStart atStop atEnd with
    ⟨object, inlines, separated, outlined⟩
  rw [inlines]
  constructor
  · exact before.append_object object separated tidy
  · rw [← span_append block (show start ≤ stop by omega) (by omega) le_rfl, List.flatMap_append,
      ← outlined, ← shown]
    rfl

theorem inlinesFrom_spec {block : Block} (annotated : block.Annotated) (mark : Annotation)
    (rest : List Annotation) (sorted : (mark :: rest).Pairwise fun a b => a.stop ≤ b.start)
    (members : ∀ other ∈ mark :: rest, other ∈ block.linkEmbedAndRangeAnnotations)
    (complete : ∀ other ∈ block.linkEmbedAndRangeAnnotations,
      other.stop ≤ mark.start ∨ other ∈ mark :: rest)
    {start : Nat} (atStart : mark.start = start) {front : List HMInlineContent}
    (tidy : Tidy front) :
    Tidy (front ++ inlinesFrom block start (mark :: rest)) ∧
      outline (inlinesFrom block start (mark :: rest)) =
        (block.span start block.text.length).flatMap block.outlineAt := by
  induction rest generalizing mark start front with
  | nil =>
      have member := members mark List.mem_cons_self
      have bounds := annotated.inside mark member
      rcases Int.eq_ofNat_of_zero_le (show 0 ≤ mark.stop by omega) with ⟨stop, atStop⟩
      have free : ∀ other ∈ block.linkEmbedAndRangeAnnotations,
          other.stop ≤ stop ∨ ((block.text.length : Nat) : Int) ≤ other.start := by
        intro other special
        rcases complete other special with before | here
        · omega
        · rw [List.mem_singleton.mp here]
          omega
      have gap := slice_of_free annotated (by omega) le_rfl free
      apply inlinesFrom_of_tail annotated member atStart atStop rfl _ _ tidy
      · rw [inlinesFrom, List.append_nil]
        exact tidy_plain gap.1
      · rw [inlinesFrom, List.append_nil, gap.2]
  | cons next rest ih =>
      have member := members mark List.mem_cons_self
      have bounds := annotated.inside mark member
      have memberNext := members next (by simp)
      have boundsNext := annotated.inside next memberNext
      have order := List.pairwise_cons.mp sorted
      have orderNext := order.1 next List.mem_cons_self
      rcases Int.eq_ofNat_of_zero_le (show 0 ≤ mark.stop by omega) with ⟨stop, atStop⟩
      rcases Int.eq_ofNat_of_zero_le (show 0 ≤ next.start by omega) with ⟨contentEnd, atEnd⟩
      have isEnd : nonAnnotationContentEnd block (next :: rest) = contentEnd := by
        rw [nonAnnotationContentEnd, List.head?_cons]
        simp only
        rw [if_neg (by omega), atEnd]
      have free : ∀ other ∈ block.linkEmbedAndRangeAnnotations,
          other.stop ≤ stop ∨ (contentEnd : Int) ≤ other.start := by
        intro other special
        have otherBounds := annotated.inside other special
        rcases complete other special with before | here
        · omega
        · rcases List.mem_cons.mp here with rfl | later
          · omega
          · rcases List.mem_cons.mp later with rfl | behind
            · omega
            · have otherOrder := (List.pairwise_cons.mp order.2).1 other behind
              omega
      have gap := slice_of_free annotated (by omega) (by omega) free
      have behind := ih next order.2
        (fun other inside => members other (List.mem_cons_of_mem _ inside))
        (by
          intro other special
          rcases complete other special with before | here
          · exact Or.inl (by omega)
          · rcases List.mem_cons.mp here with rfl | later
            · exact Or.inl orderNext
            · exact Or.inr later)
        atEnd (tidy_plain gap.1)
      apply inlinesFrom_of_tail annotated member atStart atStop isEnd behind.1 _ tidy
      rw [outline_append, gap.2, behind.2, ← List.flatMap_append,
        span_append block (by omega) (by omega) le_rfl]

/-! ## The decoded block -/

theorem Block.outline_eq (block : Block) :
    block.outline = (block.span 0 block.text.length).flatMap block.outlineAt := by
  simp [Block.outline, Block.span]

theorem partialBlockToStyledText_of_free {block : Block} (annotated : block.Annotated)
    (noSpecial : block.linkEmbedAndRangeAnnotations = []) :
    Separated (partialBlockToStyledText block) ∧
      outline ((partialBlockToStyledText block).map Piece.plain) = block.outline := by
  have free : ∀ mark ∈ block.linkEmbedAndRangeAnnotations,
      mark.stop ≤ (0 : Nat) ∨ (block.text.length : Int) ≤ mark.start := by
    simp [noSpecial]
  have painted := partialBlockToStyledText_spec block
    (comparesOn_of _ _ (whole_of_free annotated free))
  constructor
  · exact painted.1
  · rw [outline_plain, painted.2, block.outline_eq, flatMap_outlineAt_of_free annotated free,
      List.map_map]
    simp only [Block.span, List.take_length, List.drop_zero]
    rfl

/-- The links, ranges and embeds in the order of their places. -/
theorem Block.Annotated.sorted {block : Block} (annotated : block.Annotated) :
    (block.linkEmbedAndRangeAnnotations.insertionSort fun a b => a.start ≤ b.start).Pairwise
      fun a b => a.stop ≤ b.start := by
  have : Std.Total fun a b : Annotation => a.start ≤ b.start := ⟨fun _ _ => le_total _ _⟩
  have : IsTrans Annotation fun a b => a.start ≤ b.start := ⟨fun _ _ _ => le_trans⟩
  have order := List.pairwise_insertionSort (fun a b : Annotation => a.start ≤ b.start)
    block.linkEmbedAndRangeAnnotations
  have perm := List.perm_insertionSort (fun a b : Annotation => a.start ≤ b.start)
    block.linkEmbedAndRangeAnnotations
  have apart := (perm.pairwise_iff fun {_ _} => Or.symm).mpr annotated.disjoint
  apply (order.and apart).imp_of_mem
  rintro a b memA memB ⟨before, disjoint⟩
  have boundsA := annotated.inside a (perm.mem_iff.mp memA)
  have boundsB := annotated.inside b (perm.mem_iff.mp memB)
  omega

theorem toHMInlineContent_spec (block : Block) (annotated : block.Annotated) :
    ∃ inlines, toHMInlineContent block = .ok inlines ∧ outline inlines = block.outline ∧
      Tidy inlines := by
  rw [toHMInlineContent]
  split_ifs with noSpecial several
  · have painted := partialBlockToStyledText_of_free annotated noSpecial
    exact ⟨_, rfl, painted.2, tidy_plain painted.1⟩
  · simp only [List.any_eq_true, decide_eq_true_eq] at several
    rcases several with ⟨mark, member, many⟩
    rw [annotated.starts mark member, annotated.ends mark member] at many
    simp at many
  · have sorted := annotated.sorted
    have perm := List.perm_insertionSort (fun a b : Annotation => a.start ≤ b.start)
      block.linkEmbedAndRangeAnnotations
    cases inOrder : block.linkEmbedAndRangeAnnotations.insertionSort
        (fun a b => a.start ≤ b.start) with
    | nil =>
        rw [inOrder] at perm
        exact absurd perm.nil_eq.symm noSpecial
    | cons first rest =>
        rw [inOrder] at sorted perm
        have bounds := annotated.inside first (perm.mem_iff.mp List.mem_cons_self)
        rcases Int.eq_ofNat_of_zero_le bounds.1 with ⟨start, atStart⟩
        have free : ∀ other ∈ block.linkEmbedAndRangeAnnotations,
            other.stop ≤ (0 : Nat) ∨ (start : Int) ≤ other.start := by
          intro other special
          rcases List.mem_cons.mp (perm.mem_iff.mpr special) with rfl | later
          · omega
          · have order := (List.pairwise_cons.mp sorted).1 other later
            omega
        have slice := slice_of_free annotated (Nat.zero_le start) (by omega) free
        have inlines := inlinesFrom_spec annotated first rest sorted
          (fun other member => perm.mem_iff.mp member)
          (fun other special => Or.inr (perm.mem_iff.mpr special)) atStart (tidy_plain slice.1)
        simp only [List.head?_cons, Option.map_some, Option.getD_some, atStart]
        constructor
        constructor
        · rfl
        · constructor
          · rw [outline_append, inlines.2, block.outline_eq,
              ← span_append block (Nat.zero_le start) (by omega) le_rfl, List.flatMap_append,
              ← slice.2]
            rfl
          · exact inlines.1

/-- A link or a range that is shown has the units of its range. -/
theorem Block.link_of_outline {block : Block} {type : LinkType} {href : String}
    {content : StyledGlyphs} (shown : .object (.link type href content) ∈ block.outline) :
    ∃ mark ∈ block.linkEmbedAndRangeAnnotations, mark.ref = href ∧
      content = (block.span mark.start.toNat mark.stop.toNat).map block.glyphAt := by
  rcases List.mem_flatMap.mp shown with ⟨cell, _, atCell⟩
  rw [Block.outlineAt] at atCell
  split at atCell
  · next mark found =>
      constructor
      constructor
      · exact List.mem_of_find?_eq_some found
      · rw [Block.objectOf, EditorObject.ofAnnotated] at atCell
        split at atCell <;> simp_all
  · split_ifs at atCell
    · simp at atCell
    · simp [Block.glyphAt] at atCell

/-- Every unit of the text is shown with the styles of the annotations that cover it, or in the
link that holds it, or replaced by its embed. -/
theorem toHMInlineContent_paints_every_unit (block : Block) (annotated : block.Annotated) :
    ∃ inlines, toHMInlineContent block = .ok inlines ∧
      outline inlines = block.outline ∧
      Separated inlines ∧
      ∀ type href content, .object (.link type href content) ∈ inlines →
        Separated content ∧
          ∃ mark ∈ block.linkEmbedAndRangeAnnotations, mark.ref = href ∧
            glyphs content =
              (block.span mark.start.toNat mark.stop.toNat).map block.glyphAt := by
  rcases toHMInlineContent_spec block annotated with ⟨inlines, decoded, shown, tidy⟩
  constructor
  constructor
  · exact decoded
  · constructor
    · exact shown
    · constructor
      · exact tidy.separated
      · intro type href content member
        constructor
        · exact tidy.links type href content member
        · apply Block.link_of_outline
          rw [← shown]
          apply List.mem_map.mpr
          exact ⟨.object (.link type href content),
            List.mem_flatMap.mpr ⟨_, member, by simp [Piece.glyphs]⟩, rfl⟩

/-- The code units of an ASCII text. -/
def asciiText (text : String) : List UInt16 := text.toList.map fun letter => letter.toNat.toUInt16

/-- An embed at the start, a link right behind it, and styles that overlap both. -/
def annotatedBlock : Block where
  text := asciiText " link, text"
  annotations :=
    [{ type := .strong, ref := "", starts := [0, 7], ends := [3, 9] },
      { type := .link, ref := "hm://d/target", starts := [1], ends := [5] },
      { type := .emphasis, ref := "", starts := [2], ends := [8] },
      { type := .inlineEmbed, ref := "hm://a/alice", starts := [0], ends := [1] }]

theorem annotatedBlock_annotated : annotatedBlock.Annotated where
  starts := by decide
  ends := by decide
  inside := by decide
  disjoint := by decide
  styled := by decide

theorem toHMInlineContent_paints_annotatedBlock :
    annotatedBlock.Annotated ∧ ∃ inlines, toHMInlineContent annotatedBlock = .ok inlines ∧
      outline inlines = annotatedBlock.outline ∧ Separated inlines := by
  rcases toHMInlineContent_paints_every_unit annotatedBlock annotatedBlock_annotated with
    ⟨inlines, decoded, shown, separated, _⟩
  exact ⟨annotatedBlock_annotated, inlines, decoded, shown, separated⟩

example : (toHMInlineContent annotatedBlock).toOption = some
    [.object (.inlineEmbed "hm://a/alice"),
      .object (.link .link "hm://d/target"
        [.run (asciiText "l") {.bold}, .run (asciiText "i") {.bold, .italic},
          .run (asciiText "nk") {.italic}]),
      .run (asciiText ", ") {.italic}, .run (asciiText "t") {.bold, .italic},
      .run (asciiText "e") {.bold}, .run (asciiText "xt") ∅] := by
  decide +kernel

end Mintter.Frontend
