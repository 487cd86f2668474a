import Mintter.Foundation.Pieces
import Mathlib.Data.Finset.Basic
import Mathlib.Data.Fintype.Defs
import Mathlib.Data.List.Sort
import Mathlib.Logic.Function.Basic
import Mathlib.Tactic

/-!
# The inline content of a block

The text of a saved block is plain.  Its annotations say which parts are styled, which are links
or marked ranges, and which stand for an embed; `toHMInlineContent` turns them into the inlines
of the editor.

It cuts the text at the links, ranges and embeds.  For each slice it moves all annotations to
the start of the slice, also those that then lie in front of it or behind it, and paints the
styles index by index.
-/

namespace Mintter.Frontend

open Foundation

/-! ## Annotated blocks -/

/-- The styles of a text in the editor. -/
inductive Style where
  | bold
  | italic
  | underline
  | strike
  | code
deriving DecidableEq

instance : Fintype Style where
  elems := {.bold, .italic, .underline, .strike, .code}
  complete style := by cases style <;> decide

/-- The keys that are set in a style object. -/
abbrev Styles := Finset Style

/-- The types of annotations. -/
inductive AnnotationType where
  | link
  | strong
  | emphasis
  | code
  | underline
  | strike
  | color
  | inlineEmbed
  | range
deriving DecidableEq

/-- An annotation of the text, with its ranges. -/
structure Annotation where
  type : AnnotationType
  ref : String
  starts : List Int
  ends : List Int
deriving DecidableEq

/-- The text is given by its UTF-16 code units. -/
structure Block where
  text : List UInt16
  annotations : List Annotation
deriving DecidableEq

/-- The style that an annotation gives. -/
def annotationStyle (mark : Annotation) : Styles :=
  match mark.type with
  | .emphasis => {.italic}
  | .strong => {.bold}
  | .underline => {.underline}
  | .strike => {.strike}
  | .code => {.code}
  | _ => ∅

/-! ## Inlines of the editor -/

/-- A run of text in one style. -/
abbrev StyledText := Piece UInt16 Styles Empty

/-- A link, or a range of the text. -/
inductive LinkType where
  | link
  | range
deriving DecidableEq

/-- What stands between the texts; the content of a link is again text. -/
inductive EditorObject (Content : Type) where
  | link (type : LinkType) (href : String) (content : Content)
  | inlineEmbed (ref : String)
deriving DecidableEq

/-- An inline content of the editor: a styled text, a link or an embed. -/
abbrev HMInlineContent := Piece UInt16 Styles (EditorObject (List StyledText))

instance : DecidableEq HMInlineContent := inferInstance

/-! ## Painting -/

/-- Whether two units have the same styles among these keys. -/
def areStylesEqual (styles1 styles2 : Option Styles) (keys : Finset Style) : Bool :=
  match styles1, styles2 with
  | none, none => true
  | some styles1, some styles2 => decide (∀ key ∈ keys, (key ∈ styles1 ↔ key ∈ styles2))
  | _, _ => false

/-- The styles of every index.  An index that no annotation has reached has none, and an index
may be negative or behind the text. -/
abbrev StylesForIndex := Int → Option Styles

/-- Add styles to one unit. -/
def paintIndex (styles : Styles) (stylesForIndex : StylesForIndex) (i : Int) : StylesForIndex :=
  Function.update stylesForIndex i (some ((stylesForIndex i).getD ∅ ∪ styles))

/-- Add styles to the units of a range. -/
def paintRange (styles : Styles) (stylesForIndex : StylesForIndex) (range : Int × Int) :
    StylesForIndex :=
  (List.range (range.2 - range.1).toNat).foldl
    (fun table (offset : Nat) => paintIndex styles table (range.1 + offset)) stylesForIndex

/-- A start without an end paints nothing. -/
def paintAnnotated (stylesForIndex : StylesForIndex) (mark : Annotation) :
    StylesForIndex :=
  (mark.starts.zip mark.ends).foldl (paintRange (annotationStyle mark))
    stylesForIndex

/-- Add the styles of all annotations. -/
def paintAnnotations (annotations : List Annotation) : StylesForIndex :=
  annotations.foldl paintAnnotated fun _ => none

/-- All styles that the annotations give. -/
def allStyleKeys (annotations : List Annotation) : Finset Style :=
  annotations.foldl (fun keys mark => keys ∪ annotationStyle mark) ∅

/-- The loop over the text: the finished pieces, and the one that still grows. -/
structure Painter where
  inlines : List StyledText
  currentText : List UInt16
  currentStyles : Option Styles

/-- Append a unit to the current text, or begin a new one where the styles differ. -/
def Painter.next (keys : Finset Style) (painter : Painter) (unit : UInt16)
    (styles : Option Styles) : Painter :=
  if areStylesEqual styles painter.currentStyles keys then
    { painter with currentText := painter.currentText ++ [unit] }
  else
    { inlines := painter.inlines ++ [.run painter.currentText (painter.currentStyles.getD ∅)]
      currentText := [unit]
      currentStyles := styles }

/-- The last text is added if it is not empty. -/
def Painter.finish (painter : Painter) : List StyledText :=
  if painter.currentText.length = 0 then painter.inlines
  else painter.inlines ++ [.run painter.currentText (painter.currentStyles.getD ∅)]

/-- Split the text of a block into runs of one style. -/
def partialBlockToStyledText (block : Block) : List StyledText :=
  let stylesForIndex := paintAnnotations block.annotations
  let start : Painter :=
    { inlines := [], currentText := block.text.take 1, currentStyles := stylesForIndex 0 }
  ((block.text.zipIdx.drop 1).foldl
    (fun painter cell => painter.next (allStyleKeys block.annotations) cell.1
      (stylesForIndex cell.2)) start).finish

/-! ## Cutting at links, ranges and embeds -/

/-- A negative position counts from the end, and positions behind the text are its end. -/
def sliceIndex (length : Nat) (position : Int) : Nat :=
  if position < 0 then (length + position).toNat else min position.toNat length

/-- A part of a text; negative positions count from its end. -/
def slice (text : List UInt16) (start stop : Int) : List UInt16 :=
  (text.drop (sliceIndex text.length start)).take
    (sliceIndex text.length stop - sliceIndex text.length start)

/-- The annotation is a link, an embed or a range. -/
def Annotation.IsSpecial (mark : Annotation) : Prop :=
  mark.type = .link ∨ mark.type = .inlineEmbed ∨ mark.type = .range

instance (mark : Annotation) : Decidable mark.IsSpecial :=
  inferInstanceAs (Decidable (_ ∨ _ ∨ _))

/-- The annotation, seen from a position on. -/
def Annotation.shifted (mark : Annotation) (start : Int) : Annotation :=
  { mark with
    starts := mark.starts.map (· - start)
    ends := mark.ends.map (· - start) }

/-- The first range of an annotation. -/
def Annotation.start (mark : Annotation) : Int := mark.starts.headD 0

/-- Where the first range of the annotation ends. -/
def Annotation.stop (mark : Annotation) : Int := mark.ends.headD 0

/-- The links, embeds and ranges of a block. -/
def Block.linkEmbedAndRangeAnnotations (block : Block) : List Annotation :=
  block.annotations.filter (·.IsSpecial)

/-- The styled text of a part of the block. -/
def getSlicedContent (block : Block) (start stop : Int) : List StyledText :=
  partialBlockToStyledText
    { text := slice block.text start stop
      annotations := block.annotations.map (·.shifted start) }

/-- What an annotation puts among the texts. -/
def EditorObject.ofAnnotated {Content : Type} (mark : Annotation) (content : Content) :
    Option (EditorObject Content) :=
  match mark.type with
  | .link => some (.link .link mark.ref content)
  | .range => some (.link .range mark.ref content)
  | .inlineEmbed => some (.inlineEmbed mark.ref)
  | _ => none

/-- Where the text behind an annotation ends.  A next annotation at the start of the text counts
as no next annotation. -/
def nonAnnotationContentEnd (block : Block) (rest : List Annotation) : Int :=
  match rest.head? with
  | some next => if next.start = 0 then block.text.length else next.start
  | none => block.text.length

/-- The inlines from the first of the annotations on. -/
def inlinesFrom (block : Block) (annotationStart : Int) :
    List Annotation → List HMInlineContent
  | [] => []
  | mark :: rest =>
      let annotationEnd := annotationStart + (mark.stop - mark.start)
      let contentEnd := nonAnnotationContentEnd block rest
      ((EditorObject.ofAnnotated mark
          (getSlicedContent block annotationStart annotationEnd)).toList.map Piece.object) ++
        (getSlicedContent block annotationEnd contentEnd).map Piece.plain ++
        inlinesFrom block contentEnd rest

/--
The inline content of a block: its special annotations with the text before, in and behind them.
-/
def toHMInlineContent (block : Block) : Except String (List HMInlineContent) :=
  let special := block.linkEmbedAndRangeAnnotations
  if special = [] then .ok ((partialBlockToStyledText block).map Piece.plain)
  else if special.any (fun mark =>
      mark.starts.length ≠ 1 ∨ mark.ends.length ≠ 1) then
    .error ("Invalid link, embed, or range annotations in this block. " ++
      "Only one range per annotation is allowed")
  else
    let sortedAnnotations := special.insertionSort fun a b => a.start ≤ b.start
    let annotationStart := (sortedAnnotations.head?.map (·.start)).getD 0
    .ok ((getSlicedContent block 0 annotationStart).map Piece.plain ++
      inlinesFrom block annotationStart sortedAnnotations)

/-! ## What is painted -/

theorem foldl_iff {γ δ : Type} {step : γ → δ → γ} {P : γ → Prop} {Q : δ → Prop} (items : List δ)
    (atStep : ∀ state, ∀ item ∈ items, P (step state item) ↔ P state ∨ Q item) (state : γ) :
    P (items.foldl step state) ↔ P state ∨ ∃ item ∈ items, Q item := by
  induction items generalizing state with
  | nil => simp
  | cons item rest ih =>
      rw [List.foldl_cons, ih fun state item later => atStep state item (List.mem_cons_of_mem _ later),
        atStep state item List.mem_cons_self]
      simp [or_assoc]

/-- The unit is in one of the ranges. -/
def Annotation.Covers (mark : Annotation) (i : Int) : Prop :=
  ∃ range ∈ mark.starts.zip mark.ends, range.1 ≤ i ∧ i < range.2

instance (mark : Annotation) (i : Int) : Decidable (mark.Covers i) :=
  inferInstanceAs (Decidable (∃ range ∈ mark.starts.zip mark.ends, _ ∧ _))

/-- The styles of the annotations that cover an index. -/
def stylesAt (annotations : List Annotation) (i : Int) : Styles :=
  Finset.univ.filter fun style =>
    ∃ mark ∈ annotations, mark.Covers i ∧ style ∈ annotationStyle mark

theorem paintRange_apply (styles : Styles) (table : StylesForIndex) (range : Int × Int) (i : Int) :
    paintRange styles table range i =
      if range.1 ≤ i ∧ i < range.2 then some ((table i).getD ∅ ∪ styles) else table i := by
  have prefixes : ∀ count : Nat,
      (List.range count).foldl (fun table (offset : Nat) => paintIndex styles table (range.1 + offset)) table i =
        if range.1 ≤ i ∧ i < range.1 + count then some ((table i).getD ∅ ∪ styles)
        else table i := by
    intro count
    induction count with
    | zero => rw [if_neg (by omega)]; rfl
    | succ count ih =>
        rw [List.range_succ, List.foldl_append, List.foldl_cons, List.foldl_nil, paintIndex]
        by_cases here : i = range.1 + count
        · subst here
          rw [Function.update_self, ih, if_neg (by omega), if_pos (by omega)]
        · rw [Function.update_of_ne here, ih]
          congr 1
          apply propext
          push_cast
          omega
  rw [paintRange, prefixes]
  congr 1
  apply propext
  omega

theorem mem_paintAnnotation (table : StylesForIndex) (mark : Annotation) (i : Int)
    (style : Style) :
    style ∈ (paintAnnotated table mark i).getD ∅ ↔
      style ∈ (table i).getD ∅ ∨ mark.Covers i ∧ style ∈ annotationStyle mark := by
  rw [paintAnnotated]
  apply (foldl_iff (P := fun table : StylesForIndex => style ∈ (table i).getD ∅)
    (Q := fun range => (range.1 ≤ i ∧ i < range.2) ∧ style ∈ annotationStyle mark)
    _ _ table).trans
  · simp only [ Annotation.Covers, ← and_assoc, exists_and_right]
  · intro table range _
    rw [paintRange_apply]
    split_ifs with covered
    · simp [covered]
    · simp [covered]

theorem isSome_paintAnnotation (table : StylesForIndex) (mark : Annotation) (i : Int) :
    (paintAnnotated table mark i).isSome ↔ (table i).isSome ∨ mark.Covers i := by
  rw [paintAnnotated]
  apply (foldl_iff (P := fun table : StylesForIndex => (table i).isSome = true)
    (Q := fun range => range.1 ≤ i ∧ i < range.2) _ _ table).trans
  · rfl
  · intro table range _
    rw [paintRange_apply]
    split_ifs with covered
    · simp [covered]
    · simp [covered]

theorem paintAnnotations_getD (annotations : List Annotation) (i : Int) :
    (paintAnnotations annotations i).getD ∅ = stylesAt annotations i := by
  ext style
  rw [paintAnnotations]
  apply (foldl_iff (P := fun table : StylesForIndex => style ∈ (table i).getD ∅) annotations
    (fun table mark _ => mem_paintAnnotation table mark i style) _).trans
  simp [stylesAt]

theorem isSome_paintAnnotations (annotations : List Annotation) (i : Int) :
    (paintAnnotations annotations i).isSome ↔
      ∃ mark ∈ annotations, mark.Covers i := by
  rw [paintAnnotations]
  apply (foldl_iff (P := fun table : StylesForIndex => (table i).isSome = true) annotations
    (fun table mark _ => isSome_paintAnnotation table mark i) _).trans
  simp

theorem mem_allStyleKeys (annotations : List Annotation) (style : Style) :
    style ∈ allStyleKeys annotations ↔
      ∃ mark ∈ annotations, style ∈ annotationStyle mark := by
  rw [allStyleKeys]
  apply (foldl_iff (P := fun keys : Finset Style => style ∈ keys)
    (Q := fun mark => style ∈ annotationStyle mark) annotations _ _).trans
  · simp
  · intro keys mark _
    exact Finset.mem_union

theorem stylesAt_subset_keys (annotations : List Annotation) (i : Int) :
    stylesAt annotations i ⊆ allStyleKeys annotations := by
  intro style member
  rcases (Finset.mem_filter.mp member).2 with ⟨mark, inside, _, styled⟩
  exact (mem_allStyleKeys annotations style).mpr ⟨mark, inside, styled⟩

/-! ## One pass over a text -/

/-- The comparison of the loop is the comparison of the styles, for the indexes of a set. -/
def ComparesOn (annotations : List Annotation) (indexes : Int → Prop) : Prop :=
  ∀ i j, indexes i → indexes j →
    (areStylesEqual (paintAnnotations annotations i) (paintAnnotations annotations j)
        (allStyleKeys annotations) = true ↔
      stylesAt annotations i = stylesAt annotations j)

/-- The comparison can only fail where an index that is covered without a style meets one that
is not covered. -/
theorem comparesOn_of (annotations : List Annotation) (indexes : Int → Prop)
    (whole : (∀ i, indexes i → ∃ mark ∈ annotations, mark.Covers i) ∨
      ∀ i, indexes i → (∃ mark ∈ annotations, mark.Covers i) →
        stylesAt annotations i ≠ ∅) :
    ComparesOn annotations indexes := by
  intro i j atI atJ
  have keysI := stylesAt_subset_keys annotations i
  have keysJ := stylesAt_subset_keys annotations j
  -- next to an index without an entry, an entry has a style
  have styled : ∀ i j, indexes i → indexes j → paintAnnotations annotations i = none →
      ∀ styles, paintAnnotations annotations j = some styles → styles ≠ ∅ := by
    intro i j atI atJ bare styles entry
    rcases whole with covered | styled
    · have someI := (isSome_paintAnnotations annotations i).mpr (covered i atI)
      simp [bare] at someI
    · have someJ := styled j atJ ((isSome_paintAnnotations annotations j).mp (by simp [entry]))
      rwa [← paintAnnotations_getD, entry, Option.getD_some] at someJ
  rw [← paintAnnotations_getD annotations i] at keysI ⊢
  rw [← paintAnnotations_getD annotations j] at keysJ ⊢
  cases stylesI : paintAnnotations annotations i with
  | none =>
      cases stylesJ : paintAnnotations annotations j with
      | none => simp [areStylesEqual]
      | some styles =>
          simp [areStylesEqual, (styled i j atI atJ stylesI styles stylesJ).symm]
  | some styles =>
      cases stylesJ : paintAnnotations annotations j with
      | none => simp [areStylesEqual, styled j i atJ atI stylesJ styles stylesI]
      | some styles' =>
          rw [stylesI, Option.getD_some] at keysI
          rw [stylesJ, Option.getD_some] at keysJ
          simp only [areStylesEqual, Option.getD_some, decide_eq_true_eq]
          constructor
          · intro agree
            ext style
            by_cases key : style ∈ allStyleKeys annotations
            · exact agree style key
            · constructor
              · intro inside
                exact absurd (keysI inside) key
              · intro inside
                exact absurd (keysJ inside) key
          · rintro rfl
            simp

theorem Painter.glyphs_finish (painter : Painter) :
    glyphs painter.finish = glyphs painter.inlines ++
      painter.currentText.map (.char · (painter.currentStyles.getD ∅)) := by
  rw [Painter.finish]
  split_ifs with empty
  · rw [List.length_eq_zero_iff.mp empty]
    simp
  · simp [Piece.glyphs]

theorem Painter.glyphs_next {keys : Finset Style} {painter : Painter} (unit : UInt16)
    (styles : Option Styles)
    (same : areStylesEqual styles painter.currentStyles keys = true →
      styles.getD ∅ = painter.currentStyles.getD ∅) :
    glyphs (painter.next keys unit styles).finish =
      glyphs painter.finish ++ [.char unit (styles.getD ∅)] := by
  rw [Painter.glyphs_finish, Painter.glyphs_finish, Painter.next]
  split_ifs with equal
  · simp [same equal]
  · simp [Piece.glyphs]

/-- The piece that grows has grown already. -/
structure Painter.Steady (painter : Painter) : Prop where
  grown : painter.currentText ≠ []
  separated : Separated painter.finish

theorem Painter.next_currentStyles (keys : Finset Style) (painter : Painter) (unit : UInt16)
    (styles : Option Styles) :
    (painter.next keys unit styles).currentStyles = painter.currentStyles ∨
      (painter.next keys unit styles).currentStyles = styles := by
  rw [Painter.next]
  split_ifs
  · exact Or.inl rfl
  · exact Or.inr rfl

theorem Painter.Steady.next {painter : Painter} (steady : painter.Steady)
    (keys : Finset Style) (unit : UInt16) (styles : Option Styles)
    (differ : areStylesEqual styles painter.currentStyles keys = false →
      styles.getD ∅ ≠ painter.currentStyles.getD ∅) :
    (painter.next keys unit styles).Steady := by
  have separated := steady.separated
  rw [Painter.finish, if_neg (by simpa using steady.grown)] at separated
  rw [Painter.next]
  split_ifs with equal
  · constructor
    · simp
    · rw [Painter.finish, if_neg (by simp)]
      exact separated.concat_text (by simp)
  · constructor
    · simp
    · rw [Painter.finish, if_neg (by simp)]
      apply (separated_concat _ _).mpr
      constructor
      · exact separated
      · constructor
        · simp [Piece.glyphs]
        · intro last member
          rw [List.getLast?_concat, Option.mem_some_iff] at member
          subst member
          intro joined
          exact differ (by simpa using equal) joined.symm

/-- The loop paints every unit with the styles of its index. -/
theorem paint_foldl {annotations : List Annotation} {indexes : Int → Prop}
    (compares : ComparesOn annotations indexes) (cells : List (UInt16 × Nat))
    (inside : ∀ cell ∈ cells, indexes cell.2) (painter : Painter) (i : Int) (atI : indexes i)
    (current : painter.currentStyles = paintAnnotations annotations i)
    (steady : painter.Steady) :
    let painted := cells.foldl (fun painter cell => painter.next (allStyleKeys annotations)
      cell.1 (paintAnnotations annotations cell.2)) painter
    painted.Steady ∧ glyphs painted.finish = glyphs painter.finish ++
      cells.map fun cell => .char cell.1 (stylesAt annotations cell.2) := by
  induction cells generalizing painter i with
  | nil => exact ⟨steady, by simp⟩
  | cons cell rest ih =>
      have atCell := inside cell List.mem_cons_self
      have compare := compares cell.2 i atCell atI
      rw [← paintAnnotations_getD, ← paintAnnotations_getD, ← current] at compare
      have steady' := steady.next (allStyleKeys annotations) cell.1
        (paintAnnotations annotations cell.2)
        fun differ same => by simp [compare.mpr same] at differ
      have grown := Painter.glyphs_next cell.1 (paintAnnotations annotations cell.2) compare.mp
      have later : ∀ cell ∈ rest, indexes cell.2 := fun cell member =>
        inside cell (List.mem_cons_of_mem _ member)
      rw [List.foldl_cons]
      rcases Painter.next_currentStyles (allStyleKeys annotations) painter cell.1
        (paintAnnotations annotations cell.2) with kept | taken
      · have step := ih later _ i atI (kept.trans current) steady'
        rw [grown, paintAnnotations_getD] at step
        simpa using step
      · have step := ih later _ cell.2 atCell taken steady'
        rw [grown, paintAnnotations_getD] at step
        simpa using step

/-- `partialBlockToStyledText` cuts the text into separated pieces, with the styles of the
annotations that cover the unit. -/
theorem partialBlockToStyledText_spec (block : Block)
    (compares : ComparesOn block.annotations fun i => 0 ≤ i ∧ i < block.text.length) :
    Separated (partialBlockToStyledText block) ∧
      glyphs (partialBlockToStyledText block) =
        block.text.zipIdx.map fun cell => .char cell.1 (stylesAt block.annotations cell.2) := by
  rw [partialBlockToStyledText]
  cases text : block.text with
  | nil =>
      constructor
      · exact separated_nil
      · rfl
  | cons unit rest =>
      rw [text] at compares
      have painted := paint_foldl compares (rest.zipIdx 1)
        (fun cell member => by
          have bounds := List.mem_zipIdx member
          simp only [List.length_cons]
          omega)
        { inlines := [], currentText := [unit],
          currentStyles := paintAnnotations block.annotations 0 } 0 (by simp) rfl
        { grown := by simp
          separated := by
            change Separated [Piece.run [unit] _]
            apply (separated_cons _ _).mpr
            exact ⟨by simp [Piece.glyphs], by simp, separated_nil⟩ }
      constructor
      · exact painted.1.separated
      · apply painted.2.trans
        rw [Painter.glyphs_finish]
        simp [paintAnnotations_getD]

end Mintter.Frontend
