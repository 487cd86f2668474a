import Mintter.Frontend.DecodedContent

/-!
# Saved inline content

`extractContent` writes the inlines of the editor as a text with annotations.  A style that
begins with one text ends with the first later text without it, and links and embeds in between
do not end it.  So a link is saved with the styles of the text before it, whatever the styles of
its own text are.
-/

namespace Mintter.Frontend

open Foundation

/-! ## Extracting -/

/-- What is stored of an inline content: its text and its annotations. -/
structure Extracted where
  text : List UInt16
  annotations : List Annotation

/-- The block that is stored. -/
def Extracted.block (extracted : Extracted) : Block where
  text := extracted.text
  annotations := extracted.annotations

/-- The state of the loop: `styleStarts` holds where the styles that are open began. -/
structure Extraction where
  text : List UInt16
  annotations : List Annotation
  styleStarts : Style → Option Nat
  charIndex : Nat

/-- The annotation for a style. -/
def styleMarkToAnnotationType : Style → AnnotationType
  | .bold => .strong
  | .italic => .emphasis
  | .underline => .underline
  | .strike => .strike
  | .code => .code

/-- The keys of a style object.  Each is handled by itself, so their order is not observed. -/
def styleKeys : List Style := [.bold, .italic, .underline, .strike, .code]

/-- The annotation of a run in a style. -/
def annotationOfStyle (style : Style) (start stop : Nat) : Annotation where
  type := styleMarkToAnnotationType style
  ref := ""
  starts := [start]
  ends := [stop]

/-- The annotation of a link. -/
def annotationOfLink (href : String) (start stop : Nat) : Annotation where
  type := .link
  ref := href
  starts := [start]
  ends := [stop]

/-- The annotation of an embed, which takes one unit. -/
def annotationOfEmbed (ref : String) (start : Nat) : Annotation where
  type := .inlineEmbed
  ref := ref
  starts := [start]
  ends := [((start + 1 : Nat) : Int)]

/-- Nothing is extracted yet. -/
def Extraction.empty : Extraction where
  text := []
  annotations := []
  styleStarts _ := none
  charIndex := 0

/-- The annotations of the styles that end at an index. -/
def endings (starts : Style → Option Nat) (index : Nat) : List Annotation :=
  styleKeys.filterMap fun style => (starts style).map (annotationOfStyle style · index)

/-- The styles that are open once a text has begun. -/
def Extraction.opened (extraction : Extraction) (styles : Styles) (style : Style) : Option Nat :=
  if style ∈ styles ∧ extraction.styleStarts style = none then some extraction.charIndex
  else extraction.styleStarts style

/-- Append a text: end the styles that it does not have, and start those that are new. -/
def Extraction.addText (extraction : Extraction) (text : List UInt16) (styles : Styles) :
    Extraction where
  text := extraction.text ++ text
  annotations := extraction.annotations ++ endings
    (fun style => if style ∈ styles then none else extraction.opened styles style)
    extraction.charIndex
  styleStarts style := if style ∈ styles then extraction.opened styles style else none
  charIndex := extraction.charIndex + text.length

/-- End all styles that are still open. -/
def Extraction.finish (extraction : Extraction) : Extracted where
  text := extraction.text
  annotations := extraction.annotations ++ endings extraction.styleStarts extraction.charIndex

/-- `extractContent` for the content of a link, which is text. -/
def extractTexts (content : List StyledText) : Extracted :=
  (content.foldl (fun extraction piece => match piece with
    | .run text styles => extraction.addText text styles) Extraction.empty).finish

/-- A range of the document is no inline of the editor and has no text. -/
def Extraction.addInline (extraction : Extraction) (inline : HMInlineContent) :
    Except String Extraction :=
  match inline with
  | .object (.link .link href content) =>
      let linkContent := extractTexts content
      .ok { extraction with
        text := extraction.text ++ linkContent.text
        annotations := extraction.annotations ++
          linkContent.annotations.map (·.shifted (-extraction.charIndex)) ++
          [annotationOfLink href extraction.charIndex
            (extraction.charIndex + linkContent.text.length)]
        charIndex := extraction.charIndex + linkContent.text.length }
  | .object (.inlineEmbed ref) =>
      .ok { extraction with
        text := extraction.text ++ [0x20]
        annotations := extraction.annotations ++ [annotationOfEmbed ref extraction.charIndex]
        charIndex := extraction.charIndex + 1 }
  | .object (.link .range _ _) => .error "Cannot read properties of undefined (reading 'length')"
  | .run text styles => .ok (extraction.addText text styles)

/-- Extract the text and the annotations of an inline content. -/
def extractContent (content : List HMInlineContent) : Except String Extracted := do
  let extraction ← content.foldlM Extraction.addInline Extraction.empty
  return extraction.finish

/-! ## The same content -/

/-- The content without empty texts, and with neighbours of the same styles joined. -/
def normalized (content : List HMInlineContent) : List HMInlineContent :=
  merged (content.map (Piece.map (EditorObject.map merged)))

theorem EditorObject.map_map {A B C : Type} (f : A → B) (g : B → C) (object : EditorObject A) :
    (object.map f).map g = object.map (g ∘ f) := by
  cases object with
  | link type href content => rfl
  | inlineEmbed ref => rfl

theorem outline_normalized (content : List HMInlineContent) :
    outline (normalized content) = outline content := by
  rw [outline, normalized, glyphs_merged, glyphs_map, List.map_map, outline]
  apply List.map_congr_left
  intro glyph _
  rw [Function.comp_apply, Glyph.map_map]
  congr 1
  funext object
  rw [Function.comp_apply, EditorObject.map_map]
  congr 1
  funext inner
  exact glyphs_merged inner

/-- Merging sees only the glyphs. -/
theorem glyphs_map_merged (content : List HMInlineContent) :
    glyphs (content.map (Piece.map (EditorObject.map merged))) =
      (outline content).map
        (Glyph.map (EditorObject.map fun shown => merged (shown.map Glyph.piece))) := by
  rw [glyphs_map, outline, List.map_map]
  apply List.map_congr_left
  intro glyph _
  rw [Function.comp_apply, Glyph.map_map]
  congr 1
  funext object
  rw [Function.comp_apply, EditorObject.map_map]
  congr 1
  funext inner
  apply (merged_eq_merged_iff _ _).mpr
  exact (glyphs_map_piece _).symm

theorem Tidy.map_merged {inlines : List HMInlineContent} (tidy : Tidy inlines) :
    inlines.map (Piece.map (EditorObject.map merged)) = inlines := by
  apply (List.map_congr_left _).trans (List.map_id inlines)
  intro inline member
  cases inline with
  | run text styles => rfl
  | object object => cases object with
    | inlineEmbed ref => rfl
    | link type href content =>
        have separated := tidy.links type href content member
        simp only [Piece.map, EditorObject.map, id_eq, Piece.object.injEq,
          EditorObject.link.injEq, true_and]
        exact (separated.eq_merged rfl).symm

/-- Tidy inlines are determined by what they show. -/
theorem Tidy.eq_normalized {inlines : List HMInlineContent} (tidy : Tidy inlines)
    {content : List HMInlineContent} (same : outline inlines = outline content) :
    inlines = normalized content := by
  apply tidy.separated.eq_merged
  rw [← tidy.map_merged, glyphs_map_merged, glyphs_map_merged, same]

/-! ## What is extracted -/

/-- The units of texts with their styles. -/
def unitsOf (content : List StyledText) : List (UInt16 × Styles) :=
  content.flatMap fun piece => match piece with
    | .run text styles => text.map (·, styles)

theorem glyphs_texts (content : List StyledText) :
    glyphs content = (unitsOf content).map fun unit => .char unit.1 unit.2 := by
  rw [glyphs, unitsOf, List.map_flatMap]
  apply List.flatMap_congr
  intro piece _
  cases piece with
  | run text styles => simp [Piece.glyphs]
  | object impossible => exact impossible.elim

/-- The units of the text, with the styles that are saved for them: the units of a link also
have the styles that are open before it. -/
def savedUnits (before : Styles) : List HMInlineContent → List (UInt16 × Styles)
  | [] => []
  | .run text styles :: rest => text.map (·, styles) ++ savedUnits styles rest
  | .object (.link _ _ content) :: rest =>
      (unitsOf content).map (fun unit => (unit.1, before ∪ unit.2)) ++ savedUnits before rest
  | .object (.inlineEmbed _) :: rest => (0x20, before) :: savedUnits before rest

/-- The annotations of the links and embeds behind an index. -/
def savedObjects (index : Nat) : List HMInlineContent → List Annotation
  | [] => []
  | .run text _ :: rest => savedObjects (index + text.length) rest
  | .object (.link _ href content) :: rest =>
      annotationOfLink href index (index + (unitsOf content).length) ::
        savedObjects (index + (unitsOf content).length) rest
  | .object (.inlineEmbed ref) :: rest =>
      annotationOfEmbed ref index :: savedObjects (index + 1) rest

/-- A style that covers an index already, or is open there. -/
def Extraction.Covers (extraction : Extraction) (style : Style) (i : Nat) : Prop :=
  style ∈ stylesAt extraction.annotations i ∨
    ∃ start, extraction.styleStarts style = some start ∧ start ≤ i

/-- What has been extracted, and which styles are open. -/
structure Extraction.Saves (extraction : Extraction) (units : List (UInt16 × Styles))
    (objects : List Annotation) (current : Styles) : Prop where
  text : extraction.text = units.map Prod.fst
  charIndex : extraction.charIndex = units.length
  isOpen : ∀ style, (extraction.styleStarts style).isSome ↔ style ∈ current
  begun : ∀ style start, extraction.styleStarts style = some start → start ≤ units.length
  inside : ∀ mark ∈ extraction.annotations, ∀ i, mark.Covers i →
    0 ≤ i ∧ i < units.length
  covers : ∀ i unit, units[i]? = some unit →
    ∀ style, extraction.Covers style i ↔ style ∈ unit.2
  objects : extraction.annotations.filter (·.IsSpecial) = objects
  styled : ∀ mark ∈ extraction.annotations, ¬ mark.IsSpecial →
    annotationStyle mark ≠ ∅

theorem saves_empty : Extraction.empty.Saves [] [] ∅ where
  text := rfl
  charIndex := rfl
  isOpen := by simp [Extraction.empty]
  begun := by simp [Extraction.empty]
  inside := by simp [Extraction.empty]
  covers := by simp
  objects := rfl
  styled := by simp [Extraction.empty]

theorem stylesAt_append (front back : List Annotation) (i : Int) :
    stylesAt (front ++ back) i = stylesAt front i ∪ stylesAt back i := by
  ext style
  simp only [stylesAt, Finset.mem_filter, Finset.mem_univ, true_and, List.mem_append,
    Finset.mem_union]
  constructor
  · rintro ⟨mark, left | right, holds⟩
    · exact Or.inl ⟨mark, left, holds⟩
    · exact Or.inr ⟨mark, right, holds⟩
  · rintro (⟨mark, left, holds⟩ | ⟨mark, right, holds⟩)
    · exact ⟨mark, Or.inl left, holds⟩
    · exact ⟨mark, Or.inr right, holds⟩

theorem annotationStyle_annotationOfStyle (style : Style) (start stop : Nat) :
    annotationStyle (annotationOfStyle style start stop) = {style} := by
  cases style <;> rfl

theorem styleAnnotation_not_special (style : Style) (start stop : Nat) :
    ¬ (annotationOfStyle style start stop).IsSpecial := by
  cases style <;> simp [annotationOfStyle, styleMarkToAnnotationType, Annotation.IsSpecial]

theorem styleAnnotation_covers (style : Style) (start stop : Nat) (i : Int) :
    (annotationOfStyle style start stop).Covers i ↔ (start : Int) ≤ i ∧ i < stop := by
  simp [annotationOfStyle, Annotation.Covers]

theorem mem_styleKeys (style : Style) : style ∈ styleKeys := by
  cases style <;> decide

theorem mem_endings {starts : Style → Option Nat} {index : Nat} {mark : Annotation} :
    mark ∈ endings starts index ↔
      ∃ style start, starts style = some start ∧ annotationOfStyle style start index = mark := by
  simp [endings, mem_styleKeys]

theorem mem_stylesAt_endings (starts : Style → Option Nat) (index : Nat) (i : Int) (style : Style) :
    style ∈ stylesAt (endings starts index) i ↔
      ∃ start, starts style = some start ∧ (start : Int) ≤ i ∧ i < index := by
  simp only [stylesAt, Finset.mem_filter, Finset.mem_univ, true_and, mem_endings]
  constructor
  · rintro ⟨_, ⟨other, start, begun, rfl⟩, covers, styled⟩
    rw [annotationStyle_annotationOfStyle, Finset.mem_singleton] at styled
    subst styled
    exact ⟨start, begun, (styleAnnotation_covers _ _ _ _).mp covers⟩
  · rintro ⟨start, begun, covered⟩
    exact ⟨_, ⟨style, start, begun, rfl⟩, (styleAnnotation_covers _ _ _ _).mpr covered,
      by simp [annotationStyle_annotationOfStyle]⟩

theorem filter_endings (starts : Style → Option Nat) (index : Nat) :
    (endings starts index).filter (·.IsSpecial) = [] := by
  rw [List.filter_eq_nil_iff]
  intro mark member
  rcases mem_endings.mp member with ⟨style, start, _, rfl⟩
  simpa using styleAnnotation_not_special style start index

theorem Extraction.Saves.not_covered {extraction : Extraction} {units : List (UInt16 × Styles)}
    {objects : List Annotation} {current : Styles}
    (saves : extraction.Saves units objects current) {i : Nat} (later : units.length ≤ i) :
    stylesAt extraction.annotations i = ∅ := by
  apply Finset.filter_eq_empty_iff.mpr
  rintro style - ⟨mark, member, covers, _⟩
  have ended := saves.inside mark member i covers
  omega

/-- A style that a text opens begins with it. -/
theorem Extraction.Saves.opened_iff {extraction : Extraction} {units : List (UInt16 × Styles)}
    {objects : List Annotation} {current : Styles}
    (saves : extraction.Saves units objects current) (styles : Styles) {style : Style} {i : Nat}
    (earlier : i < units.length) :
    (∃ start, extraction.opened styles style = some start ∧ start ≤ i) ↔
      ∃ start, extraction.styleStarts style = some start ∧ start ≤ i := by
  rw [opened]
  split_ifs with opens
  · constructor
    · rintro ⟨start, begun, before⟩
      have index := saves.charIndex
      simp only [Option.some.injEq] at begun
      omega
    · rintro ⟨start, begun, _⟩
      rw [opens.2] at begun
      contradiction
  · rfl

theorem Extraction.Saves.opened_of_mem {extraction : Extraction} {units : List (UInt16 × Styles)}
    {objects : List Annotation} {current : Styles}
    (saves : extraction.Saves units objects current) {styles : Styles} {style : Style}
    (member : style ∈ styles) :
    ∃ start, extraction.opened styles style = some start ∧ start ≤ units.length := by
  rw [opened]
  split_ifs with opens
  · exact ⟨_, rfl, saves.charIndex.le⟩
  · cases starts : extraction.styleStarts style with
    | none => exact absurd ⟨member, starts⟩ opens
    | some start => exact ⟨start, rfl, saves.begun style start starts⟩

theorem Extraction.Saves.covers_addText {extraction : Extraction}
    {units : List (UInt16 × Styles)} {objects : List Annotation} {current : Styles}
    (saves : extraction.Saves units objects current) (text : List UInt16) (styles : Styles)
    (style : Style) (i : Nat) :
    (extraction.addText text styles).Covers style i ↔
      if i < units.length then extraction.Covers style i else style ∈ styles := by
  rw [Covers, addText, stylesAt_append, Finset.mem_union, mem_stylesAt_endings, saves.charIndex]
  by_cases earlier : i < units.length
  · rw [if_pos earlier, Covers, ← saves.opened_iff styles earlier]
    by_cases member : style ∈ styles
    · simp [member]
    · simp [member, earlier]
  · rw [if_neg earlier, saves.not_covered (not_lt.mp earlier)]
    by_cases member : style ∈ styles
    · rcases saves.opened_of_mem member with ⟨start, begun, before⟩
      simp only [member, if_true, begun]
      simp
      omega
    · simp [member]
      omega

theorem Extraction.Saves.addText {extraction : Extraction} {units : List (UInt16 × Styles)}
    {objects : List Annotation} {current : Styles}
    (saves : extraction.Saves units objects current) (text : List UInt16) (styles : Styles) :
    (extraction.addText text styles).Saves (units ++ text.map (·, styles)) objects styles where
  text := by
    rw [Extraction.addText, saves.text]
    simp [Function.comp_def]
  charIndex := by
    rw [Extraction.addText, saves.charIndex]
    simp
  isOpen := by
    intro style
    rw [Extraction.addText]
    simp only
    split_ifs with member
    · rcases saves.opened_of_mem member with ⟨start, begun, _⟩
      simp [begun, member]
    · simp [member]
  begun := by
    intro style start begun
    rw [Extraction.addText] at begun
    simp only at begun
    split_ifs at begun with member
    rcases saves.opened_of_mem member with ⟨first, opened, before⟩
    rw [opened, Option.some.injEq] at begun
    rw [List.length_append]
    omega
  inside := by
    intro mark member i covers
    rw [List.length_append]
    rcases List.mem_append.mp member with left | right
    · have ended := saves.inside mark left i covers
      omega
    · rcases mem_endings.mp right with ⟨style, start, _, rfl⟩
      have bounds := (styleAnnotation_covers _ _ _ _).mp covers
      have index := saves.charIndex
      omega
  covers := by
    intro i unit atIndex style
    rw [saves.covers_addText]
    split_ifs with earlier
    · rw [List.getElem?_append_left earlier] at atIndex
      exact saves.covers i unit atIndex style
    · rw [List.getElem?_append_right (not_lt.mp earlier), List.getElem?_map] at atIndex
      rcases Option.map_eq_some_iff.mp atIndex with ⟨letter, _, rfl⟩
      rfl
  objects := by
    rw [Extraction.addText, List.filter_append, filter_endings, List.append_nil, saves.objects]
  styled := by
    intro mark member notSpecial
    rcases List.mem_append.mp member with left | right
    · exact saves.styled mark left notSpecial
    · rcases mem_endings.mp right with ⟨style, start, _, rfl⟩
      simp [annotationStyle_annotationOfStyle]

/-- Texts with annotations that say what the units are. -/
structure Extracted.Holds (extracted : Extracted) (units : List (UInt16 × Styles))
    (objects : List Annotation) : Prop where
  text : extracted.text = units.map Prod.fst
  inside : ∀ mark ∈ extracted.annotations, ∀ i, mark.Covers i →
    0 ≤ i ∧ i < units.length
  styles : ∀ (i : Nat) unit, units[i]? = some unit → stylesAt extracted.annotations i = unit.2
  objects : extracted.annotations.filter (·.IsSpecial) = objects
  styled : ∀ mark ∈ extracted.annotations, ¬ mark.IsSpecial →
    annotationStyle mark ≠ ∅

theorem Extraction.Saves.finish {extraction : Extraction} {units : List (UInt16 × Styles)}
    {objects : List Annotation} {current : Styles}
    (saves : extraction.Saves units objects current) : extraction.finish.Holds units objects where
  text := saves.text
  inside := by
    intro mark member i covers
    rcases List.mem_append.mp member with left | right
    · exact saves.inside mark left i covers
    · rcases mem_endings.mp right with ⟨style, start, _, rfl⟩
      have bounds := (styleAnnotation_covers _ _ _ _).mp covers
      have index := saves.charIndex
      omega
  styles := by
    intro i unit atIndex
    have inside : i < units.length := (List.getElem?_eq_some_iff.mp atIndex).1
    ext style
    rw [← saves.covers i unit atIndex style, Extraction.finish, stylesAt_append,
      Finset.mem_union, mem_stylesAt_endings, saves.charIndex, Extraction.Covers]
    simp [inside]
  objects := by
    rw [Extraction.finish, List.filter_append, filter_endings, List.append_nil, saves.objects]
  styled := by
    intro mark member notSpecial
    rcases List.mem_append.mp member with left | right
    · exact saves.styled mark left notSpecial
    · rcases mem_endings.mp right with ⟨style, start, _, rfl⟩
      simp [annotationStyle_annotationOfStyle]

theorem Extracted.Holds.not_covered {extracted : Extracted} {units : List (UInt16 × Styles)}
    {objects : List Annotation} (holds : extracted.Holds units objects) {i : Int}
    (outside : i < 0 ∨ units.length ≤ i) : stylesAt extracted.annotations i = ∅ := by
  apply Finset.filter_eq_empty_iff.mpr
  rintro style - ⟨mark, member, covers, _⟩
  have bounds := holds.inside mark member i covers
  omega

theorem extractTexts_holds (content : List StyledText) :
    (extractTexts content).Holds (unitsOf content) [] := by
  have run : ∀ (content : List StyledText) (extraction : Extraction)
      (units : List (UInt16 × Styles)) (current : Styles), extraction.Saves units [] current →
      ∃ later, (content.foldl (fun extraction piece => match piece with
        | .run text styles => extraction.addText text styles) extraction).Saves
          (units ++ unitsOf content) [] later := by
    intro content
    induction content with
    | nil =>
        intro extraction units current saves
        exact ⟨current, by simpa [unitsOf] using saves⟩
    | cons piece rest ih =>
        intro extraction units current saves
        cases piece with
        | object impossible => exact impossible.elim
        | run text styles =>
            rcases ih _ _ _ (saves.addText text styles) with ⟨later, saved⟩
            exact ⟨later, by simpa [unitsOf] using saved⟩
  rcases run content _ _ _ saves_empty with ⟨later, saved⟩
  exact saved.finish

/-- Annotations that are taken over from the content of a link. -/
theorem stylesAt_shifted_back (annotations : List Annotation) (index i : Nat) :
    stylesAt (annotations.map (·.shifted (-(index : Int)))) i =
      stylesAt annotations ((i : Int) - index) := by
  rw [stylesAt_shifted, Int.sub_eq_add_neg]

theorem stylesAt_special {mark : Annotation} (special : mark.IsSpecial) (i : Int) :
    stylesAt [mark] i = ∅ := by
  apply Finset.filter_eq_empty_iff.mpr
  rintro style - ⟨other, member, _, styled⟩
  rw [List.mem_singleton.mp member, annotationStyle] at styled
  rcases special with link | embed | range
  · simp [link] at styled
  · simp [embed] at styled
  · simp [range] at styled

/-- A link or an embed is added: what it holds is covered by the open styles as well. -/
theorem Extraction.Saves.addObject {extraction : Extraction} {units : List (UInt16 × Styles)}
    {objects : List Annotation} {current : Styles}
    (saves : extraction.Saves units objects current) {content : Extracted}
    {inner : List (UInt16 × Styles)} (holds : content.Holds inner []) (mark : Annotation)
    (special : mark.IsSpecial) (starts : mark.starts = [(units.length : Int)])
    (ends : mark.ends = [((units.length + inner.length : Nat) : Int)]) :
    Saves
      { extraction with
        text := extraction.text ++ content.text
        annotations := extraction.annotations ++
          content.annotations.map (·.shifted (-extraction.charIndex)) ++ [mark]
        charIndex := extraction.charIndex + content.text.length }
      (units ++ inner.map fun unit => (unit.1, current ∪ unit.2)) (objects ++ [mark])
      current where
  text := by
    simp [saves.text, holds.text, Function.comp_def]
  charIndex := by
    simp [saves.charIndex, holds.text]
  isOpen := saves.isOpen
  begun := by
    intro style start begun
    have before := saves.begun style start begun
    rw [List.length_append]
    omega
  inside := by
    intro other member i covers
    rw [List.length_append, List.length_map]
    rcases List.mem_append.mp member with front | here
    · rcases List.mem_append.mp front with left | right
      · have ended := saves.inside other left i covers
        omega
      · rcases List.mem_map.mp right with ⟨source, mem, rfl⟩
        rw [ Annotation.covers_shifted] at covers
        have ended := holds.inside source mem _ covers
        have index := saves.charIndex
        omega
    · rw [List.mem_singleton.mp here, Annotation.Covers, starts, ends] at covers
      simp at covers
      omega
  covers := by
    intro i unit atIndex style
    rw [Covers]
    simp only [stylesAt_append, stylesAt_special special, stylesAt_shifted_back,
      Finset.union_empty, saves.charIndex, Finset.mem_union]
    by_cases earlier : i < units.length
    · rw [List.getElem?_append_left earlier] at atIndex
      rw [← saves.covers i unit atIndex style, Extraction.Covers,
        holds.not_covered (by omega)]
      simp only [Finset.notMem_empty, or_false]
    · rw [List.getElem?_append_right (not_lt.mp earlier), List.getElem?_map] at atIndex
      rcases Option.map_eq_some_iff.mp atIndex with ⟨source, here, rfl⟩
      have own := holds.styles _ source here
      rw [Int.ofNat_sub (not_lt.mp earlier)] at own
      rw [saves.not_covered (not_lt.mp earlier), own, Finset.mem_union, ← saves.isOpen style,
        Option.isSome_iff_exists]
      simp only [Finset.notMem_empty, false_or]
      constructor
      · rintro (styled | ⟨start, begun, _⟩)
        · exact Or.inr styled
        · exact Or.inl ⟨start, begun⟩
      · rintro (⟨start, begun⟩ | styled)
        · have before := saves.begun style start begun
          exact Or.inr ⟨start, begun, by omega⟩
        · exact Or.inl styled
  objects := by
    have noneInside : (content.annotations.map (·.shifted (-(extraction.charIndex : Int)))).filter
        (·.IsSpecial) = [] := by
      rw [List.filter_map, List.map_eq_nil_iff]
      exact holds.objects
    rw [List.filter_append, List.filter_append, saves.objects, noneInside]
    simp [special]
  styled := by
    intro other member notSpecial
    rcases List.mem_append.mp member with front | here
    · rcases List.mem_append.mp front with left | right
      · exact saves.styled other left notSpecial
      · rcases List.mem_map.mp right with ⟨source, mem, rfl⟩
        exact holds.styled source mem notSpecial
    · rw [List.mem_singleton.mp here] at notSpecial
      exact absurd special notSpecial

/-! ## The whole content -/

/-- The inlines of the editor: its links have text, and it has no ranges. -/
def Editable (content : List HMInlineContent) : Prop :=
  ∀ type href inner, .object (.link type href inner) ∈ content →
    type = .link ∧ unitsOf inner ≠ []

theorem Editable.tail {inline : HMInlineContent} {rest : List HMInlineContent}
    (editable : Editable (inline :: rest)) : Editable rest :=
  fun type href inner member => editable type href inner (List.mem_cons_of_mem _ member)

theorem Extraction.Saves.addLink {extraction : Extraction} {units : List (UInt16 × Styles)}
    {objects : List Annotation} {current : Styles}
    (saves : extraction.Saves units objects current) (href : String) (inner : List StyledText) :
    ∃ next, extraction.addInline (.object (.link .link href inner)) = .ok next ∧
      next.Saves (units ++ (unitsOf inner).map fun unit => (unit.1, current ∪ unit.2))
        (objects ++ [annotationOfLink href units.length (units.length + (unitsOf inner).length)])
        current := by
  have holds := extractTexts_holds inner
  have length : (extractTexts inner).text.length = (unitsOf inner).length := by
    rw [holds.text, List.length_map]
  have added := saves.addObject holds
    (annotationOfLink href units.length (units.length + (unitsOf inner).length)) (Or.inl rfl) rfl rfl
  rw [← saves.charIndex, ← length] at added ⊢
  exact ⟨_, rfl, added⟩

theorem Extraction.Saves.addEmbed {extraction : Extraction} {units : List (UInt16 × Styles)}
    {objects : List Annotation} {current : Styles}
    (saves : extraction.Saves units objects current) (ref : String) :
    ∃ next, extraction.addInline (.object (.inlineEmbed ref)) = .ok next ∧
      next.Saves (units ++ [(0x20, current)])
        (objects ++ [annotationOfEmbed ref units.length]) current := by
  have holds : ({ text := [0x20], annotations := [] } : Extracted).Holds [(0x20, ∅)] [] := by
    constructor
    · rfl
    · simp
    · intro i unit here
      cases i with
      | zero =>
          rw [List.getElem?_cons_zero, Option.some.injEq] at here
          rw [← here]
          rfl
      | succ i => simp at here
    · rfl
    · simp
  have added := saves.addObject holds
    (annotationOfEmbed ref units.length) (Or.inr (Or.inl rfl)) rfl rfl
  simp only [List.map_nil, List.append_nil, List.map_cons, Finset.union_empty] at added
  rw [← saves.charIndex] at added ⊢
  exact ⟨_, rfl, added⟩

theorem Extraction.Saves.addInlines {content : List HMInlineContent} (editable : Editable content)
    {extraction : Extraction} {units : List (UInt16 × Styles)} {objects : List Annotation}
    {current : Styles} (saves : extraction.Saves units objects current) :
    ∃ final later, content.foldlM Extraction.addInline extraction = .ok final ∧
      final.Saves (units ++ savedUnits current content)
        (objects ++ savedObjects units.length content) later := by
  induction content generalizing extraction units objects current with
  | nil => exact ⟨extraction, current, rfl, by simpa [savedUnits, savedObjects] using saves⟩
  | cons inline rest ih =>
      cases inline with
      | run text styles =>
          rcases ih editable.tail (saves.addText text styles) with ⟨final, later, run, saved⟩
          exact ⟨final, later, run, by simpa [savedUnits, savedObjects] using saved⟩
      | object object => cases object with
        | link type href inner =>
            rcases editable type href inner List.mem_cons_self with ⟨rfl, _⟩
            rcases saves.addLink href inner with ⟨next, step, saved⟩
            rcases ih editable.tail saved with ⟨final, later, run, reached⟩
            constructor
            constructor
            constructor
            · rw [List.foldlM_cons, step]
              exact run
            · simpa [savedUnits, savedObjects] using reached
        | inlineEmbed ref =>
            rcases saves.addEmbed ref with ⟨next, step, saved⟩
            rcases ih editable.tail saved with ⟨final, later, run, reached⟩
            constructor
            constructor
            constructor
            · rw [List.foldlM_cons, step]
              exact run
            · simpa [savedUnits, savedObjects] using reached

theorem extractContent_holds {content : List HMInlineContent} (editable : Editable content) :
    ∃ extracted, extractContent content = .ok extracted ∧
      extracted.Holds (savedUnits ∅ content) (savedObjects 0 content) := by
  rcases saves_empty.addInlines editable with ⟨final, later, run, saved⟩
  constructor
  constructor
  · rw [extractContent, run]
    rfl
  · exact saved.finish

/-! ## What the saved block shows -/

theorem savedObjects_bounds {content : List HMInlineContent} (editable : Editable content)
    (before : Styles) (index : Nat) :
    ∀ mark ∈ savedObjects index content,
      mark.starts = [mark.start] ∧ mark.ends = [mark.stop] ∧
        index ≤ mark.start ∧ mark.start < mark.stop ∧
          mark.stop ≤ (index + (savedUnits before content).length : Nat) := by
  induction content generalizing before index with
  | nil => simp [savedObjects]
  | cons inline rest ih =>
      intro mark member
      cases inline with
      | run text styles =>
          have bounds := ih editable.tail styles _ mark member
          simp only [savedUnits, List.length_append, List.length_map] at bounds ⊢
          exact ⟨bounds.1, bounds.2.1, by omega, bounds.2.2.2.1, by omega⟩
      | object object => cases object with
        | link type href inner =>
            have text := List.length_pos_iff.mpr (editable type href inner List.mem_cons_self).2
            simp only [savedUnits, List.length_append, List.length_map]
            rcases List.mem_cons.mp member with rfl | later
            · simp [annotationOfLink, Annotation.start, Annotation.stop]
              omega
            · have bounds := ih editable.tail before _ mark later
              exact ⟨bounds.1, bounds.2.1, by omega, bounds.2.2.2.1, by omega⟩
        | inlineEmbed ref =>
            simp only [savedUnits, List.length_cons]
            rcases List.mem_cons.mp member with rfl | later
            · simp [annotationOfEmbed, Annotation.start, Annotation.stop]
            · have bounds := ih editable.tail before _ mark later
              exact ⟨bounds.1, bounds.2.1, by omega, bounds.2.2.2.1, by omega⟩

theorem savedObjects_sorted {content : List HMInlineContent} (editable : Editable content)
    (index : Nat) : (savedObjects index content).Pairwise fun a b => a.stop ≤ b.start := by
  induction content generalizing index with
  | nil => exact List.Pairwise.nil
  | cons inline rest ih =>
      cases inline with
      | run text styles => exact ih editable.tail _
      | object object => cases object with
        | link type href inner =>
            apply List.pairwise_cons.mpr
            constructor
            · intro later member
              exact (savedObjects_bounds editable.tail ∅ _ later member).2.2.1
            · exact ih editable.tail _
        | inlineEmbed ref =>
            apply List.pairwise_cons.mpr
            constructor
            · intro later member
              exact (savedObjects_bounds editable.tail ∅ _ later member).2.2.1
            · exact ih editable.tail _

theorem Extracted.Holds.annotated {extracted : Extracted} {content : List HMInlineContent}
    (editable : Editable content)
    (holds : extracted.Holds (savedUnits ∅ content) (savedObjects 0 content)) :
    extracted.block.Annotated := by
  have bounds := savedObjects_bounds editable ∅ 0
  have objects : extracted.block.linkEmbedAndRangeAnnotations = savedObjects 0 content :=
    holds.objects
  have length : extracted.block.text.length = (savedUnits ∅ content).length := by
    rw [Extracted.block, holds.text, List.length_map]
  constructor
  · rw [objects]
    exact fun mark member => (bounds mark member).1
  · rw [objects]
    exact fun mark member => (bounds mark member).2.1
  · intro mark member
    rw [objects] at member
    have inside := bounds mark member
    omega
  · rw [objects]
    exact (savedObjects_sorted editable 0).imp Or.inl
  · exact holds.styled

/-- What the saved block shows: a link has the styles that are open before it. -/
def savedOutline (before : Styles) : List HMInlineContent → Outline
  | [] => []
  | .run text styles :: rest => text.map (.char · styles) ++ savedOutline styles rest
  | .object (.link type href content) :: rest =>
      .object (.link type href ((unitsOf content).map fun unit => .char unit.1 (before ∪ unit.2))) ::
        savedOutline before rest
  | .object (.inlineEmbed ref) :: rest => .object (.inlineEmbed ref) :: savedOutline before rest

theorem Extracted.Holds.glyphs_span {extracted : Extracted} {done mid rest : List (UInt16 × Styles)}
    {objects : List Annotation} (holds : extracted.Holds (done ++ mid ++ rest) objects) {β : Type} :
    (extracted.block.span done.length (done.length + mid.length)).map
        (extracted.block.glyphAt (β := β)) =
      mid.map fun unit => .char unit.1 unit.2 := by
  have text : extracted.block.text = done.map Prod.fst ++ (mid.map Prod.fst ++ rest.map Prod.fst) := by
    rw [Extracted.block, holds.text]
    simp
  have slice : (extracted.block.text.take (done.length + mid.length)).drop done.length =
      mid.map Prod.fst := by
    rw [text]
    simp [List.take_append]
  rw [Block.span, slice]
  apply List.ext_getElem
  · simp
  · intro i here there
    have inside : i < mid.length := by simpa using there
    have styles := holds.styles (done.length + i) mid[i]
      (by simp [List.getElem?_append, inside])
    simp only [List.getElem_map, List.getElem_zipIdx, Block.glyphAt]
    rw [← styles]
    rfl

/-- The units of one inline and those behind it. -/
theorem Extracted.Holds.span_cons {extracted : Extracted} {done mid rest : List (UInt16 × Styles)}
    {objects : List Annotation} (holds : extracted.Holds (done ++ mid ++ rest) objects) :
    extracted.block.span done.length (done ++ mid ++ rest).length =
      extracted.block.span done.length (done.length + mid.length) ++
        extracted.block.span (done ++ mid).length (done ++ mid ++ rest).length := by
  have length : extracted.block.text.length = (done ++ mid ++ rest).length := by
    rw [Extracted.block, holds.text, List.length_map]
  have joined := span_append extracted.block (Nat.le_add_right done.length mid.length)
    (show done.length + mid.length ≤ (done ++ mid ++ rest).length by
      simp only [List.length_append]
      omega) length.ge
  rw [← joined, @List.length_append _ done mid]

theorem Extracted.Holds.shows_object {extracted : Extracted}
    {done mid rest : List (UInt16 × Styles)} {objects : List Annotation}
    (holds : extracted.Holds (done ++ mid ++ rest) objects)
    (annotated : extracted.block.Annotated) (mark : Annotation)
    (member : mark ∈ objects) (atStart : mark.start = done.length)
    (atStop : mark.stop = (done.length + mid.length : Nat)) :
    (extracted.block.span done.length (done ++ mid ++ rest).length).flatMap
        extracted.block.outlineAt =
      ((EditorObject.ofAnnotated mark
          (mid.map fun unit => .char unit.1 unit.2)).toList.map Glyph.object) ++
        (extracted.block.span (done ++ mid).length (done ++ mid ++ rest).length).flatMap
          extracted.block.outlineAt := by
  have special : mark ∈ extracted.block.linkEmbedAndRangeAnnotations := by
    rw [← holds.objects] at member
    exact member
  rw [holds.span_cons, List.flatMap_append,
    flatMap_outlineAt_of_special annotated special atStart atStop, Block.objectOf, atStart, atStop,
    Int.toNat_natCast, Int.toNat_natCast, holds.glyphs_span]

theorem Extracted.Holds.shows {extracted : Extracted} {units : List (UInt16 × Styles)}
    {objects : List Annotation} (holds : extracted.Holds units objects)
    (annotated : extracted.block.Annotated) {content : List HMInlineContent}
    (editable : Editable content) (done : List (UInt16 × Styles)) (front : List Annotation)
    (current : Styles) (units_eq : units = done ++ savedUnits current content)
    (objects_eq : objects = front ++ savedObjects done.length content)
    (before : ∀ mark ∈ front, mark.stop ≤ done.length) :
    (extracted.block.span done.length units.length).flatMap extracted.block.outlineAt =
      savedOutline current content := by
  have special : extracted.block.linkEmbedAndRangeAnnotations = objects := holds.objects
  induction content generalizing done front current with
  | nil =>
      rw [units_eq, savedUnits, List.append_nil, Block.span]
      simp [savedOutline]
  | cons inline rest ih =>
      cases inline with
      | run text styles =>
          have later := ih editable.tail (done ++ text.map (·, styles)) front styles
            (by rw [units_eq]; simp [savedUnits]) (by rw [objects_eq]; simp [savedObjects])
            (by
              intro mark member
              have stop := before mark member
              rw [List.length_append]
              omega)
          rw [savedUnits, ← List.append_assoc] at units_eq
          subst units_eq
          have free : ∀ mark ∈ extracted.block.linkEmbedAndRangeAnnotations,
              mark.stop ≤ done.length ∨
                ((done.length + (text.map (·, styles)).length : Nat) : Int) ≤ mark.start := by
            intro mark member
            rw [special, objects_eq] at member
            rcases List.mem_append.mp member with left | right
            · exact Or.inl (before mark left)
            · rw [List.length_map]
              exact Or.inr (savedObjects_bounds editable.tail ∅ _ mark right).2.2.1
          rw [holds.span_cons, List.flatMap_append, later,
            flatMap_outlineAt_of_free annotated free, holds.glyphs_span, savedOutline,
            List.map_map]
          rfl
      | object object => cases object with
        | link type href inner =>
            rcases editable type href inner List.mem_cons_self with ⟨rfl, _⟩
            have later := ih editable.tail
              (done ++ (unitsOf inner).map fun unit => (unit.1, current ∪ unit.2))
              (front ++ [annotationOfLink href done.length (done.length + (unitsOf inner).length)])
              current (by rw [units_eq]; simp [savedUnits])
              (by rw [objects_eq]; simp [savedObjects])
              (by
                intro mark member
                rw [List.length_append, List.length_map]
                rcases List.mem_append.mp member with left | right
                · have stop := before mark left
                  omega
                · rw [List.mem_singleton.mp right]
                  rfl)
            rw [savedUnits, ← List.append_assoc] at units_eq
            subst units_eq
            rw [holds.shows_object annotated
                (annotationOfLink href done.length (done.length + (unitsOf inner).length))
                (by rw [objects_eq, savedObjects]; simp) rfl (by rw [List.length_map]; rfl),
              later, savedOutline, List.map_map]
            rfl
        | inlineEmbed ref =>
            have later := ih editable.tail (done ++ [(0x20, current)])
              (front ++ [annotationOfEmbed ref done.length]) current
              (by rw [units_eq]; simp [savedUnits]) (by rw [objects_eq]; simp [savedObjects])
              (by
                intro mark member
                rw [List.length_append, List.length_singleton]
                rcases List.mem_append.mp member with left | right
                · have stop := before mark left
                  omega
                · rw [List.mem_singleton.mp right]
                  rfl)
            rw [savedUnits, List.append_cons] at units_eq
            subst units_eq
            rw [holds.shows_object annotated (annotationOfEmbed ref done.length)
                (by rw [objects_eq, savedObjects]; simp) rfl rfl,
              later, savedOutline]
            rfl

/-! ## Saving and loading -/

/-- What is shown of an inline content after it was stored. -/
def savedAndLoaded (content : List HMInlineContent) : Except String (List HMInlineContent) := do
  let extracted ← extractContent content
  toHMInlineContent extracted.block

theorem savedAndLoaded_shows {content : List HMInlineContent} (editable : Editable content) :
    ∃ inlines, savedAndLoaded content = .ok inlines ∧ outline inlines = savedOutline ∅ content ∧
      Tidy inlines := by
  rcases extractContent_holds editable with ⟨extracted, saved, holds⟩
  have annotated := holds.annotated editable
  rcases toHMInlineContent_spec extracted.block annotated with ⟨inlines, loaded, shown, tidy⟩
  have length : extracted.block.text.length = (savedUnits ∅ content).length := by
    rw [Extracted.block, holds.text, List.length_map]
  constructor
  constructor
  · rw [savedAndLoaded, saved]
    exact loaded
  · constructor
    · rw [shown, Block.outline_eq, length]
      exact holds.shows annotated editable [] [] ∅ rfl rfl (by simp)
    · exact tidy

/-- Every link carries the styles of the last text before it in all of its own text. -/
def CarriesStyles (before : Styles) : List HMInlineContent → Prop
  | [] => True
  | .run _ styles :: rest => CarriesStyles styles rest
  | .object (.link _ _ content) :: rest =>
      (∀ text styles, .run text styles ∈ content → text ≠ [] → before ⊆ styles) ∧
        CarriesStyles before rest
  | .object (.inlineEmbed _) :: rest => CarriesStyles before rest

theorem mem_unitsOf (content : List StyledText) (before : Styles) :
    (∀ unit ∈ unitsOf content, before ⊆ unit.2) ↔
      ∀ text styles, .run text styles ∈ content → text ≠ [] → before ⊆ styles := by
  constructor
  · intro units text styles member nonempty
    rcases List.exists_mem_of_ne_nil text nonempty with ⟨letter, inside⟩
    exact units (letter, styles) (List.mem_flatMap.mpr
      ⟨_, member, List.mem_map.mpr ⟨letter, inside, rfl⟩⟩)
  · intro pieces unit member
    rcases List.mem_flatMap.mp member with ⟨piece, inside, here⟩
    cases piece with
    | run text styles =>
        rcases List.mem_map.mp here with ⟨letter, letterInside, rfl⟩
        exact pieces text styles inside (List.ne_nil_of_mem letterInside)
    | object impossible => exact impossible.elim

theorem savedOutline_eq_iff (before : Styles) (content : List HMInlineContent) :
    savedOutline before content = outline content ↔ CarriesStyles before content := by
  induction content generalizing before with
  | nil => exact ⟨fun _ => trivial, fun _ => rfl⟩
  | cons inline rest ih =>
      cases inline with
      | run text styles =>
          have shown : outline (.run text styles :: rest) =
              text.map (.char · styles) ++ outline rest := by
            simp [outline, Piece.glyphs, Glyph.map]
          rw [savedOutline, shown, List.append_cancel_left_eq, ih, CarriesStyles]
      | object object => cases object with
        | link type href inner =>
            have shown : outline (.object (.link type href inner) :: rest) =
                .object (.link type href (glyphs inner)) :: outline rest := rfl
            rw [savedOutline, shown, CarriesStyles, ← mem_unitsOf, glyphs_texts]
            simp only [List.cons.injEq, Glyph.object.injEq, EditorObject.link.injEq, true_and, ih,
              List.map_inj_left, Glyph.char.injEq, Finset.union_eq_right]
        | inlineEmbed ref =>
            have shown : outline (.object (.inlineEmbed ref) :: rest) =
                .object (.inlineEmbed ref) :: outline rest := rfl
            rw [savedOutline, shown, CarriesStyles, List.cons.injEq, ih]
            simp

/-- What is saved is loaded again exactly when no style ends at a link. -/
theorem savedAndLoaded_eq_normalized_iff (content : List HMInlineContent)
    (editable : Editable content) :
    savedAndLoaded content = .ok (normalized content) ↔ CarriesStyles ∅ content := by
  rcases savedAndLoaded_shows editable with ⟨inlines, loaded, shown, tidy⟩
  rw [loaded, ← savedOutline_eq_iff, ← shown, Except.ok.injEq]
  constructor
  · rintro rfl
    exact outline_normalized content
  · exact tidy.eq_normalized

/-- A link of bold and italic text behind bold text. -/
def linkInBold : List HMInlineContent :=
  [.run (asciiText "see ") {.bold},
    .object (.link .link "hm://d/target" [.run (asciiText "this") {.bold, .italic}]),
    .run (asciiText " text") ∅]

theorem linkInBold_editable : Editable linkInBold := by
  intro type href inner member
  simp only [linkInBold, List.mem_cons, List.not_mem_nil, reduceCtorEq, Piece.object.injEq,
    EditorObject.link.injEq, false_or, or_false] at member
  rcases member with ⟨rfl, -, rfl⟩
  constructor
  · rfl
  · decide

theorem linkInBold_is_loaded_again : savedAndLoaded linkInBold = .ok (normalized linkInBold) := by
  apply (savedAndLoaded_eq_normalized_iff linkInBold linkInBold_editable).mpr
  simp [linkInBold, CarriesStyles]

/-- A link without styles behind bold text. -/
def linkAfterBold : List HMInlineContent :=
  [.run (asciiText "see ") {.bold},
    .object (.link .link "hm://d/target" [.run (asciiText "this") ∅]),
    .run (asciiText " text") ∅]

theorem linkAfterBold_editable : Editable linkAfterBold := by
  intro type href inner member
  simp only [linkAfterBold, List.mem_cons, List.not_mem_nil, reduceCtorEq, Piece.object.injEq,
    EditorObject.link.injEq, false_or, or_false] at member
  rcases member with ⟨rfl, -, rfl⟩
  constructor
  · rfl
  · decide

/-- The link comes back in bold. -/
theorem linkAfterBold_is_loaded_in_bold :
    Editable linkAfterBold ∧
      (savedAndLoaded linkAfterBold).toOption = some
        [.run (asciiText "see ") {.bold},
          .object (.link .link "hm://d/target" [.run (asciiText "this") {.bold}]),
          .run (asciiText " text") ∅] ∧
      savedAndLoaded linkAfterBold ≠ .ok (normalized linkAfterBold) := by
  have loaded : (savedAndLoaded linkAfterBold).toOption = some
      [.run (asciiText "see ") {.bold},
        .object (.link .link "hm://d/target" [.run (asciiText "this") {.bold}]),
        .run (asciiText " text") ∅] := by
    decide +kernel
  constructor
  · exact linkAfterBold_editable
  · constructor
    · exact loaded
    · intro same
      rw [same] at loaded
      revert loaded
      decide +kernel

end Mintter.Frontend
