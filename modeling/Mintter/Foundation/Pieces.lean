import Mathlib.Data.List.Chain
import Mathlib.Tactic.Common

/-!
# Styled text in pieces

A text whose units carry styles, with objects between its parts, can be cut into pieces in many
ways.  What a reader sees of the pieces are their glyphs: the units with their styles, and the
objects.

Pieces are separated when none is empty and no two neighbours have the same style.  There is
only one separated cut of given glyphs (`Separated.eq_of_glyphs`), so dropping the empty texts
and joining the neighbours of one style (`merged`) yields the same pieces for two cuts exactly
when they have the same glyphs (`merged_eq_merged_iff`).
-/

namespace Mintter.Foundation

variable {α σ β γ : Type}

/-- A text in one style, or an object that stands between the texts. -/
inductive Piece (α σ β : Type) where
  | run (text : List α) (style : σ)
  | object (object : β)
deriving DecidableEq

/-- A unit of the text with its style, or an object. -/
inductive Glyph (α σ β : Type) where
  | char (unit : α) (style : σ)
  | object (object : β)
deriving DecidableEq

/-- The units of a run in its style, or the object. -/
def Piece.glyphs : Piece α σ β → List (Glyph α σ β)
  | .run text style => text.map (.char · style)
  | .object thing => [.object thing]

/-- What a list of pieces shows, unit by unit. -/
def glyphs (pieces : List (Piece α σ β)) : List (Glyph α σ β) :=
  pieces.flatMap Piece.glyphs

@[simp]
theorem glyphs_nil : glyphs ([] : List (Piece α σ β)) = [] := rfl

@[simp]
theorem glyphs_cons (piece : Piece α σ β) (pieces : List (Piece α σ β)) :
    glyphs (piece :: pieces) = piece.glyphs ++ glyphs pieces := by
  simp [glyphs]

/-- Two lists of pieces show what the first shows and then what the second shows. -/
@[simp]
theorem glyphs_append (front back : List (Piece α σ β)) :
    glyphs (front ++ back) = glyphs front ++ glyphs back := by
  simp [glyphs]

/-! ## Other objects -/

/-- Change what an object holds. -/
def Piece.map (f : β → γ) : Piece α σ β → Piece α σ γ
  | .run text style => .run text style
  | .object thing => .object (f thing)

/-- Change what an object holds. -/
def Glyph.map (f : β → γ) : Glyph α σ β → Glyph α σ γ
  | .char unit style => .char unit style
  | .object thing => .object (f thing)

/-- Styled text stands in a list of pieces with any objects. -/
def Piece.plain : Piece α σ Empty → Piece α σ β := Piece.map Empty.elim

@[simp]
theorem Piece.glyphs_map (f : β → γ) (piece : Piece α σ β) :
    (piece.map f).glyphs = piece.glyphs.map (Glyph.map f) := by
  cases piece with
  | run text style => simp [Piece.map, Piece.glyphs, Glyph.map]
  | object object => simp [Piece.map, Piece.glyphs, Glyph.map]

/-- The changed pieces show the changed objects. -/
@[simp]
theorem glyphs_map (f : β → γ) (pieces : List (Piece α σ β)) :
    glyphs (pieces.map (Piece.map f)) = (glyphs pieces).map (Glyph.map f) := by
  simp [glyphs, List.flatMap_map, List.map_flatMap]

theorem Glyph.map_map {δ : Type} (f : β → γ) (g : γ → δ) (glyph : Glyph α σ β) :
    (glyph.map f).map g = glyph.map (g ∘ f) := by
  cases glyph with
  | char unit style => rfl
  | object object => rfl

/-! ## Separated pieces -/

/-- Two texts of one style. -/
def Piece.Joins : Piece α σ β → Piece α σ β → Prop
  | .run _ style, .run _ other => style = other
  | _, _ => False

/-- Whether two runs join depends on their styles only. -/
theorem Piece.joins_congr (text other : List α) (style : σ) (next : Piece α σ β) :
    (Piece.run text style).Joins next ↔ (Piece.run other style).Joins next := by
  cases next with
  | run nextText nextStyle => simp only [Piece.Joins]
  | object thing => simp only [Piece.Joins]

theorem Piece.joins_run_congr (piece : Piece α σ β) (text other : List α) (style : σ) :
    piece.Joins (.run text style) ↔ piece.Joins (.run other style) := by
  cases piece with
  | run pieceText pieceStyle => simp only [Piece.Joins]
  | object thing => simp only [Piece.Joins]

/-- No piece is empty, and none joins the next one. -/
structure Separated (pieces : List (Piece α σ β)) : Prop where
  nonempty : ∀ piece ∈ pieces, piece.glyphs ≠ []
  apart : pieces.IsChain fun piece next => ¬ piece.Joins next

theorem separated_nil : Separated ([] : List (Piece α σ β)) where
  nonempty := by simp
  apart := List.isChain_nil

/-- A piece may stand before a separated list if it is not empty and does not join the first one. -/
theorem separated_cons (piece : Piece α σ β) (pieces : List (Piece α σ β)) :
    Separated (piece :: pieces) ↔
      piece.glyphs ≠ [] ∧ (∀ next ∈ pieces.head?, ¬ piece.Joins next) ∧ Separated pieces := by
  constructor
  · intro separated
    have chain := List.isChain_cons.mp separated.apart
    exact ⟨separated.nonempty _ List.mem_cons_self, chain.1,
      fun other member => separated.nonempty _ (List.mem_cons_of_mem _ member), chain.2⟩
  · rintro ⟨nonempty, apart, separated⟩
    constructor
    · intro other member
      rcases List.mem_cons.mp member with rfl | later
      · exact nonempty
      · exact separated.nonempty _ later
    · exact List.isChain_cons.mpr ⟨apart, separated.apart⟩

theorem Separated.tail {piece : Piece α σ β} {pieces : List (Piece α σ β)}
    (separated : Separated (piece :: pieces)) : Separated pieces :=
  ((separated_cons piece pieces).mp separated).2.2

/-- Two separated lists make one, unless they join where they meet. -/
theorem Separated.append {front back : List (Piece α σ β)} (before : Separated front)
    (after : Separated back)
    (apart : ∀ piece ∈ front.getLast?, ∀ next ∈ back.head?, ¬ piece.Joins next) :
    Separated (front ++ back) where
  nonempty := by
    intro piece member
    rcases List.mem_append.mp member with left | right
    · exact before.nonempty piece left
    · exact after.nonempty piece right
  apart := List.isChain_append.mpr ⟨before.apart, after.apart, apart⟩

/--
A piece may stand behind a separated list if it is not empty and the last one does not join it.
-/
theorem separated_concat (pieces : List (Piece α σ β)) (piece : Piece α σ β) :
    Separated (pieces ++ [piece]) ↔
      Separated pieces ∧ piece.glyphs ≠ [] ∧ ∀ last ∈ pieces.getLast?, ¬ last.Joins piece := by
  constructor
  · intro separated
    have chain := List.isChain_append.mp separated.apart
    constructor
    · exact ⟨fun other member => separated.nonempty other (List.mem_append_left _ member), chain.1⟩
    · exact ⟨separated.nonempty piece (by simp), fun last member => chain.2.2 last member piece (by simp)⟩
  · rintro ⟨separated, nonempty, apart⟩
    apply separated.append
    · exact (separated_cons piece []).mpr ⟨nonempty, by simp, separated_nil⟩
    · simpa using apart

/-- The last text may grow. -/
theorem Separated.concat_text {pieces : List (Piece α σ β)} {text : List α} {style : σ}
    (separated : Separated (pieces ++ [.run text style])) {other : List α} (grown : other ≠ []) :
    Separated (pieces ++ [.run other style]) := by
  rcases (separated_concat _ _).mp separated with ⟨before, _, apart⟩
  apply (separated_concat _ _).mpr
  constructor
  · exact before
  · constructor
    · simpa [Piece.glyphs] using grown
    · intro last member joined
      exact apart last member ((Piece.joins_run_congr last _ _ style).mp joined)

/-- An object keeps the texts before it and behind it apart. -/
theorem Separated.append_object {front back : List (Piece α σ β)} (before : Separated front)
    (object : β) (after : Separated back) : Separated (front ++ .object object :: back) := by
  apply before.append
  · apply (separated_cons _ _).mpr
    exact ⟨by simp [Piece.glyphs], by simp [Piece.Joins], after⟩
  · intro piece _ next first
    rw [List.head?_cons, Option.mem_some_iff] at first
    subst first
    cases piece with
    | run text style => simp [Piece.Joins]
    | object other => simp [Piece.Joins]

theorem Piece.joins_map (f : β → γ) (piece next : Piece α σ β) :
    (piece.map f).Joins (next.map f) ↔ piece.Joins next := by
  cases piece with
  | run text style => cases next <;> simp [Piece.map, Piece.Joins]
  | object object => simp [Piece.map, Piece.Joins]

theorem Separated.map {pieces : List (Piece α σ β)} (separated : Separated pieces)
    (f : β → γ) : Separated (pieces.map (Piece.map f)) where
  nonempty := by
    intro piece member
    rcases List.mem_map.mp member with ⟨source, inside, rfl⟩
    simpa using separated.nonempty source inside
  apart := by
    rw [List.isChain_map]
    apply separated.apart.imp
    intro piece next apart joined
    exact apart ((Piece.joins_map f piece next).mp joined)

/-! ## One separated cut -/

/-- The glyph is a unit in this style. -/
def Glyph.InStyle (style : σ) : Glyph α σ β → Prop
  | .char _ other => other = style
  | .object _ => False

instance [DecidableEq σ] (style : σ) (glyph : Glyph α σ β) : Decidable (glyph.InStyle style) :=
  match glyph with
  | .char _ other => inferInstanceAs (Decidable (other = style))
  | .object _ => inferInstanceAs (Decidable False)

theorem glyphs_head_of_separated {pieces : List (Piece α σ β)} (separated : Separated pieces)
    {first : Glyph α σ β} (here : first ∈ (glyphs pieces).head?) :
    ∃ piece ∈ pieces.head?, first ∈ piece.glyphs.head? := by
  cases pieces with
  | nil => simp at here
  | cons piece rest =>
      have nonempty := ((separated_cons piece rest).mp separated).1
      rw [glyphs_cons, List.head?_append_of_ne_nil _ nonempty] at here
      exact ⟨piece, by simp, here⟩

/-- The first text of separated pieces ends where the style ends. -/
theorem Separated.not_inStyle {text : List α} {style : σ} {pieces : List (Piece α σ β)}
    (separated : Separated (.run text style :: pieces)) {first : Glyph α σ β}
    (here : first ∈ (glyphs pieces).head?) : ¬ first.InStyle style := by
  rcases (separated_cons _ _).mp separated with ⟨_, apart, later⟩
  rcases glyphs_head_of_separated later here with ⟨piece, member, inside⟩
  have notJoined := apart piece member
  cases piece with
  | run other otherStyle =>
      cases other with
      | nil => simp [Piece.glyphs] at inside
      | cons unit rest =>
          simp only [Piece.glyphs, List.map_cons, List.head?_cons, Option.mem_some_iff] at inside
          subst inside
          intro same
          exact notJoined same.symm
  | object object =>
      simp only [Piece.glyphs, List.head?_cons, Option.mem_some_iff] at inside
      subst inside
      exact id

/-- Two lists whose fronts end where a property ends have the same fronts. -/
theorem append_inj_of_while {p : γ → Prop} [DecidablePred p]
    {front front' back back' : List γ}
    (inside : ∀ x ∈ front, p x) (inside' : ∀ x ∈ front', p x)
    (stop : ∀ x ∈ back.head?, ¬ p x) (stop' : ∀ x ∈ back'.head?, ¬ p x)
    (same : front ++ back = front' ++ back') : front = front' ∧ back = back' := by
  have cut : ∀ front back : List γ, (∀ x ∈ front, p x) → (∀ x ∈ back.head?, ¬ p x) →
      (front ++ back).takeWhile p = front := by
    intro front back inside stop
    rw [List.takeWhile_append_of_pos (by simpa using inside)]
    cases back with
    | nil => simp
    | cons x rest => simp [stop x (by simp)]
  have front_eq : front = front' := by
    rw [← cut front back inside stop, same, cut front' back' inside' stop']
  subst front_eq
  exact ⟨rfl, List.append_cancel_left same⟩

/-- Separated lists that show the same are equal. -/
theorem Separated.eq_of_glyphs [DecidableEq σ] {pieces others : List (Piece α σ β)}
    (separated : Separated pieces) (separated' : Separated others)
    (same : glyphs pieces = glyphs others) : pieces = others := by
  induction pieces generalizing others with
  | nil =>
      cases others with
      | nil => rfl
      | cons other rest =>
          have nonempty := separated'.nonempty other List.mem_cons_self
          simp [nonempty] at same
  | cons piece rest ih =>
      cases others with
      | nil =>
          have nonempty := separated.nonempty piece List.mem_cons_self
          simp [nonempty] at same
      | cons other rest' =>
          have nonempty := separated.nonempty piece List.mem_cons_self
          have nonempty' := separated'.nonempty other List.mem_cons_self
          have equal : piece = other ∧ glyphs rest = glyphs rest' := by
            rw [glyphs_cons, glyphs_cons] at same
            cases piece with
            | object object => cases other with
              | object otherObject => simpa [Piece.glyphs] using same
              | run text style => cases text <;> simp [Piece.glyphs] at same nonempty'
            | run text style => cases other with
              | object otherObject => cases text <;> simp [Piece.glyphs] at same nonempty
              | run text' style' =>
                  have styles : style = style' := by
                    cases text with
                    | nil => simp [Piece.glyphs] at nonempty
                    | cons unit units => cases text' with
                      | nil => simp [Piece.glyphs] at nonempty'
                      | cons unit' units' =>
                          simp only [Piece.glyphs, List.map_cons, List.cons_append,
                            List.cons.injEq, Glyph.char.injEq] at same
                          exact same.1.2
                  subst styles
                  have parts := append_inj_of_while (p := Glyph.InStyle style)
                    (by simp [Piece.glyphs, Glyph.InStyle]) (by simp [Piece.glyphs, Glyph.InStyle])
                    (fun _ => separated.not_inStyle) (fun _ => separated'.not_inStyle) same
                  constructor
                  · have texts := parts.1
                    simp only [Piece.glyphs] at texts
                    rw [(List.map_injective_iff.mpr fun _ _ h => by simpa using h) texts]
                  · exact parts.2
          rw [equal.1, ih separated.tail separated'.tail equal.2]

/-! ## Merging -/

/-- A glyph as a piece of its own. -/
def Glyph.piece : Glyph α σ β → Piece α σ β
  | .char unit style => .run [unit] style
  | .object thing => .object thing

/-- Every glyph can be a piece of its own. -/
theorem glyphs_map_piece (shown : List (Glyph α σ β)) : glyphs (shown.map Glyph.piece) = shown := by
  induction shown with
  | nil => rfl
  | cons glyph rest ih =>
      rw [List.map_cons, glyphs_cons, ih]
      cases glyph with
      | char unit style => rfl
      | object thing => rfl

/-- Drop an empty text, and join a text with a text of its style behind it. -/
def push [DecidableEq σ] : Piece α σ β → List (Piece α σ β) → List (Piece α σ β)
  | .object object, pieces => .object object :: pieces
  | .run [] _, pieces => pieces
  | .run (unit :: units) style, .run text other :: pieces =>
      if style = other then .run (unit :: units ++ text) style :: pieces
      else .run (unit :: units) style :: .run text other :: pieces
  | .run (unit :: units) style, pieces => .run (unit :: units) style :: pieces

/-- Join the pieces that can be joined. -/
def merged [DecidableEq σ] (pieces : List (Piece α σ β)) : List (Piece α σ β) :=
  pieces.foldr push []

variable [DecidableEq σ]

/-- Pushing a piece shows it in front. -/
theorem glyphs_push (piece : Piece α σ β) (pieces : List (Piece α σ β)) :
    glyphs (push piece pieces) = piece.glyphs ++ glyphs pieces := by
  fun_cases push piece pieces with
  | case1 => simp
  | case2 => simp [Piece.glyphs]
  | case3 => simp_all [Piece.glyphs]
  | case4 => simp
  | case5 => simp

/-- Pushing a piece keeps the list separated. -/
theorem Separated.push {pieces : List (Piece α σ β)} (separated : Separated pieces)
    (piece : Piece α σ β) : Separated (push piece pieces) := by
  fun_cases Foundation.push piece pieces with
  | case1 object => exact separated_nil.append_object object separated
  | case2 => exact separated
  | case3 unit units text style pieces =>
      rcases (separated_cons _ _).mp separated with ⟨_, apart, later⟩
      apply (separated_cons _ _).mpr
      constructor
      · simp [Piece.glyphs]
      · constructor
        · intro next first joined
          exact apart next first ((Piece.joins_congr _ _ _ _).mp joined)
        · exact later
  | case4 unit units style text other pieces differ =>
      apply (separated_cons _ _).mpr
      exact ⟨by simp [Piece.glyphs], by simpa [Piece.Joins] using differ, separated⟩
  | case5 unit units style pieces notRun =>
      apply (separated_cons _ _).mpr
      constructor
      · simp [Piece.glyphs]
      · constructor
        · intro next first
          cases next with
          | run text other =>
              cases pieces with
              | nil => simp at first
              | cons head rest =>
                  rw [List.head?_cons, Option.mem_some_iff] at first
                  exact absurd (by rw [first]) (notRun text other rest)
          | object object => simp [Piece.Joins]
        · exact separated

theorem merged_cons (piece : Piece α σ β) (pieces : List (Piece α σ β)) :
    merged (piece :: pieces) = push piece (merged pieces) := rfl

/-- Joining does not change what is shown. -/
@[simp]
theorem glyphs_merged (pieces : List (Piece α σ β)) : glyphs (merged pieces) = glyphs pieces := by
  induction pieces with
  | nil => rfl
  | cons piece rest ih => rw [merged_cons, glyphs_push, ih, glyphs_cons]

/-- After joining, nothing is left to join. -/
theorem separated_merged (pieces : List (Piece α σ β)) : Separated (merged pieces) := by
  induction pieces with
  | nil => exact separated_nil
  | cons piece rest ih => exact ih.push piece

/-- A separated list is what any list that shows the same is joined to. -/
theorem Separated.eq_merged {pieces others : List (Piece α σ β)} (separated : Separated pieces)
    (same : glyphs pieces = glyphs others) : pieces = merged others := by
  apply separated.eq_of_glyphs (separated_merged others)
  rw [same, glyphs_merged]

/-- Two lists are joined to the same pieces if they show the same. -/
theorem merged_eq_merged_iff (pieces others : List (Piece α σ β)) :
    merged pieces = merged others ↔ glyphs pieces = glyphs others := by
  constructor
  · intro same
    rw [← glyphs_merged pieces, same, glyphs_merged]
  · intro same
    apply (separated_merged pieces).eq_merged
    rw [glyphs_merged, same]

end Mintter.Foundation
