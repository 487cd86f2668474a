import Mathlib.Data.String.Basic
import Mintter.Foundation.CausalInsertion
import Mintter.Foundation.Outcome

/-!
# The RGA list of the older CRDT package

A list is a ring of positions which starts and ends at a root.  A new position goes behind the
position it names, past the positions with greater IDs.

The ring is related to the sequence of its elements: the links to the right lead through the
elements in their order, the links to the left lead back.  Insertion into the ring is the causal
insertion into the sequence, so any two causal orders of the same insertions leave one sequence.
-/

namespace Mintter.Crdt

open Mintter.Foundation

/-! ## Identifiers of operations -/

/-- What identifies an element: its author, the time of the operation, and its index in it. -/
structure ID where
  origin : String
  clock : Int
  idx : Int
deriving DecidableEq, Repr

namespace ID

/-- Identifiers are ordered by clock, then by origin, then by index. -/
def less (i ii : ID) : Bool :=
  if i.clock < ii.clock then true
  else if ii.clock < i.clock then false
  else if i.origin < ii.origin then true
  else if ii.origin < i.origin then false
  else decide (i.idx < ii.idx)

/-- The clock first, then the site. -/
def rank (i : ID) : Int ×ₗ String ×ₗ Int :=
  toLex (i.clock, toLex (i.origin, i.idx))

theorem rank_injective : Function.Injective rank := by
  rintro ⟨origin, clock, idx⟩ ⟨origin', clock', idx'⟩ same
  have pair : clock = clock' ∧ toLex (origin, idx) = toLex (origin', idx') :=
    Prod.mk.inj (toLex_inj.mp same)
  have tail : origin = origin' ∧ idx = idx' := Prod.mk.inj (toLex_inj.mp pair.2)
  rw [pair.1, tail.1, tail.2]

instance : LinearOrder ID := LinearOrder.lift' rank rank_injective

/-- The order of the identifiers, part by part. -/
theorem lt_iff {i ii : ID} :
    i < ii ↔ i.clock < ii.clock ∨ i.clock = ii.clock ∧
      (i.origin < ii.origin ∨ i.origin = ii.origin ∧ i.idx < ii.idx) := by
  change rank i < rank ii ↔ _
  simp [rank, Prod.Lex.lt_iff]

/-- The comparison is the strict order. -/
theorem less_eq (i ii : ID) : i.less ii = decide (i < ii) := by
  rw [less]
  rcases lt_trichotomy i.clock ii.clock with clockLess | clockSame | clockGreater
  · simp [lt_iff, clockLess]
  · rcases lt_trichotomy i.origin ii.origin with originLess | originSame | originGreater
    · simp [lt_iff, clockSame, originLess]
    · simp [lt_iff, clockSame, originSame]
    · simp [lt_iff, clockSame, originGreater, originGreater.not_gt, originGreater.ne']
  · simp [lt_iff, clockGreater, clockGreater.not_gt, clockGreater.ne']

/-- The text that an error shows for an identifier. -/
def text (i : ID) : String :=
  s!"\x7b{i.origin} {i.clock} {i.idx}\x7d"

end ID

/-- The identifier in front of all elements. -/
def listStart : ID := ⟨"", 0, 0⟩

/-- The identifier behind all elements. -/
def listEnd : ID := ⟨"", -1, 0⟩

/-- The two identifiers under which a list knows its root. -/
def IsSentinel (id : ID) : Prop := id = listStart ∨ id = listEnd

instance (id : ID) : Decidable (IsSentinel id) := inferInstanceAs (Decidable (_ ∨ _))

/-! ## The ring of positions -/

/-- A pointer to a position of one list: its root, or what was allocated for an identifier. -/
inductive Pointer where
  | root
  | position (id : ID)
deriving DecidableEq, Repr

/-- A position inside a list; the list itself is left to the pointer. -/
structure Position (V : Type) where
  id : ID
  ref : ID
  left : Pointer
  right : Pointer
  value : Option V

/-- A list, with what its pointers point at. -/
structure ListCRDT (V : Type) where
  id : String
  items : ID → Option Pointer
  cell : Pointer → Position V

variable {V : Type}

/-- An empty list, whose sentinels are both at the root. -/
def newList (lid : String) : ListCRDT V where
  id := lid
  items := fun id => if id = listStart ∨ id = listEnd then some .root else none
  cell := fun _ => ⟨listStart, listStart, .root, .root, none⟩

namespace ListCRDT

/-- Write through a pointer. -/
def modify (l : ListCRDT V) (pos : Pointer) (f : Position V → Position V) : ListCRDT V :=
  { l with cell := Function.update l.cell pos (f (l.cell pos)) }

/-- The place to the right, unless it is the root again. -/
def next (l : ListCRDT V) (pos : Pointer) : Option Pointer :=
  if (l.cell pos).right = .root then none else some (l.cell pos).right

/-- The place of an identifier, or an error. -/
def findPos (l : ListCRDT V) (id : ID) : Except String Pointer :=
  match l.items id with
  | none => .error s!"position {id.text} not found in list {l.id}"
  | some p => .ok p

/-- The loop of `integrate`: the last position before the first one with a smaller identifier. -/
def skipGreater (l : ListCRDT V) (id : ID) : Nat → Pointer → Outcome Pointer
  | 0, _ => .error .outOfFuel
  | fuel + 1, parent =>
      if (l.cell parent).right = .root then pure parent
      else
        match l.next parent with
        | none => panicWith "invalid memory address or nil pointer dereference"
        | some next =>
            if (l.cell next).id.less id then pure parent
            else l.skipGreater id fuel (l.cell parent).right

/-- Link an element into the ring behind its left neighbour. -/
def insertAfter (l : ListCRDT V) (el left : Pointer) : ListCRDT V :=
  let l := l.modify el fun p => { p with left := left }
  let l := l.modify el fun p => { p with right := (l.cell left).right }
  let l := l.modify (l.cell el).left fun p => { p with right := el }
  l.modify (l.cell el).right fun p => { p with left := el }

/-- Insert an element behind the one that it refers to, once. -/
def integrate (l : ListCRDT V) (id : ID) (parent : Pointer) (v : Option V) (fuel : Nat) :
    Outcome (Except String (Pointer × ListCRDT V)) :=
  if (l.items id).isSome then
    pure (.error s!"position id {id.text} is already integrated in list {l.id}")
  else do
    let p := Pointer.position id
    -- The links of the new position are not read before `insertAfter` has set them.
    let l := l.modify p fun _ => ⟨id, (l.cell parent).id, .root, .root, none⟩
    let parent ← l.skipGreater id fuel parent
    let l := l.insertAfter p parent
    let l := l.modify p fun pos => { pos with value := v }
    pure (.ok (p, { l with items := Function.update l.items id (some p) }))

/-- The identifiers from a position to the end of the list. -/
def idsFrom (l : ListCRDT V) : Nat → Pointer → Outcome (List ID)
  | 0, _ => .error .outOfFuel
  | fuel + 1, el =>
      if el = .root then pure []
      else do
        let rest ← l.idsFrom fuel (l.cell el).right
        pure ((l.cell el).id :: rest)

/-- The identifiers from the left to the right. -/
def ids (l : ListCRDT V) (fuel : Nat) : Outcome (List ID) :=
  l.idsFrom fuel (l.cell .root).right

/-! ## Links -/

section Links

variable {l : ListCRDT V} {el left x : Pointer}

@[simp]
theorem modify_items (pos : Pointer) (f : Position V → Position V) :
    (l.modify pos f).items = l.items := rfl

@[simp]
theorem modify_id (pos : Pointer) (f : Position V → Position V) :
    (l.modify pos f).id = l.id := rfl

/-- Modifying a place changes its cell and no other one. -/
theorem modify_cell (pos : Pointer) (f : Position V → Position V) (x : Pointer) :
    (l.modify pos f).cell x = if x = pos then f (l.cell pos) else l.cell x :=
  Function.update_apply _ _ _ _

/-- What `insertAfter` leaves in every position. -/
theorem insertAfter_cell (differs : el ≠ left) (new : (l.cell left).right ≠ el)
    (x : Pointer) : (l.insertAfter el left).cell x =
      { l.cell x with
        right := if x = left then el else if x = el then (l.cell left).right
          else (l.cell x).right
        left := if x = (l.cell left).right then el else if x = el then left
          else (l.cell x).left } := by
  have notNew : left ≠ el := differs.symm
  by_cases isNew : x = el
  · subst isNew
    simp [insertAfter, modify_cell, differs, notNew, new.symm]
  · by_cases isLeft : x = left
    · subst isLeft
      by_cases isNext : x = (l.cell x).right
      · simp [insertAfter, modify_cell, differs, notNew, ← isNext]
      · simp [insertAfter, modify_cell, differs, notNew, isNext]
    · by_cases isNext : x = (l.cell left).right
      · subst isNext
        simp [insertAfter, modify_cell, differs, notNew, new, isLeft]
      · simp [insertAfter, modify_cell, differs, notNew, isNew, isLeft, isNext]

theorem modify_cell_value (pos : Pointer) {f : Position V → Position V}
    (keeps : ∀ p, (f p).value = p.value) (x : Pointer) :
    ((l.modify pos f).cell x).value = (l.cell x).value := by
  rw [modify_cell]
  by_cases same : x = pos
  · rw [if_pos same, keeps, same]
  · rw [if_neg same]

theorem insertAfter_value (x : Pointer) :
    ((l.insertAfter el left).cell x).value = (l.cell x).value := by
  rw [insertAfter]
  simp only [modify_cell_value, implies_true]

/-- The links lead from the root through the pointers back to the root, both ways. -/
structure Ring (cell : Pointer → Position V) (pointers : List Pointer) : Prop where
  right : (Pointer.root :: pointers).map (fun p => (cell p).right) = pointers ++ [.root]
  left : (pointers ++ [Pointer.root]).map (fun p => (cell p).left) = .root :: pointers
  nodup : (Pointer.root :: pointers).Nodup

/-- A list with its first item and without it. -/
theorem exists_getLastD_concat {α : Type} (first : α) (items : List α) :
    ∃ front, first :: items = front ++ [items.getLastD first] := by
  rcases List.eq_nil_or_concat' items with rfl | ⟨front, last, rfl⟩
  · exact ⟨[], rfl⟩
  · refine ⟨first :: front, ?_⟩
    rw [List.getLastD_concat]
    rfl

/-- From a place to the right and back. -/
theorem Ring.left_right {cell : Pointer → Position V} {pointers : List Pointer}
    (ring : Ring cell pointers) {p : Pointer} (member : p ∈ Pointer.root :: pointers) :
    (cell (cell p).right).left = p := by
  have around : (Pointer.root :: pointers).map (fun p => (cell (cell p).right).left) =
      (Pointer.root :: pointers).map fun p => p := by
    rw [List.map_id']
    calc (Pointer.root :: pointers).map (fun p => (cell (cell p).right).left)
        = ((Pointer.root :: pointers).map fun p => (cell p).right).map
            fun p => (cell p).left := by rw [List.map_map]; rfl
      _ = .root :: pointers := by rw [ring.right, ring.left]
  exact List.map_inj_left.mp around p member

theorem Ring.right_left {cell : Pointer → Position V} {pointers : List Pointer}
    (ring : Ring cell pointers) {p : Pointer} (member : p ∈ Pointer.root :: pointers) :
    (cell (cell p).left).right = p := by
  have around : (pointers ++ [Pointer.root]).map (fun p => (cell (cell p).left).right) =
      (pointers ++ [Pointer.root]).map fun p => p := by
    rw [List.map_id']
    calc (pointers ++ [Pointer.root]).map (fun p => (cell (cell p).left).right)
        = ((pointers ++ [Pointer.root]).map fun p => (cell p).left).map
            fun p => (cell p).right := by rw [List.map_map]; rfl
      _ = pointers ++ [.root] := by rw [ring.left, ring.right]
  have inRing : p ∈ pointers ++ [Pointer.root] := by
    rw [List.mem_append, List.mem_singleton]
    exact (List.mem_cons.mp member).symm
  exact List.map_inj_left.mp around p inRing

/-- Linking an element behind the last one of the front keeps the ring. -/
theorem Ring.insertAfter {before after : List Pointer}
    (ring : Ring l.cell (before ++ after)) (fresh : el ∉ Pointer.root :: (before ++ after)) :
    Ring (l.insertAfter el (before.getLastD .root)).cell (before ++ el :: after) := by
  obtain ⟨front, frontEq⟩ := exists_getLastD_concat Pointer.root before
  generalize before.getLastD .root = left at frontEq
  obtain ⟨next, back, backEq⟩ : ∃ next back, after ++ [Pointer.root] = next :: back := by
    cases after with
    | nil => exact ⟨_, _, rfl⟩
    | cons next after => exact ⟨_, _, rfl⟩
  have frontLength : front.length = before.length := by
    have := congrArg List.length frontEq
    simpa using this.symm
  have backLength : back.length = after.length := by
    have := congrArg List.length backEq
    simpa using this.symm
  -- what the ring says of the two parts
  have nodup : (front ++ left :: after).Nodup := by
    have := ring.nodup
    rwa [← List.cons_append, frontEq, List.append_assoc, List.singleton_append] at this
  have nodup' : (before ++ next :: back).Nodup := by
    rw [← backEq, ← List.append_assoc]
    exact (List.perm_append_singleton _ _).nodup_iff.mpr ring.nodup
  have rights : (front ++ left :: after).map (fun p => (l.cell p).right) =
      before ++ next :: back := by
    have := ring.right
    rwa [← List.cons_append, frontEq, List.append_assoc, List.append_assoc,
      List.singleton_append, backEq] at this
  have lefts : (before ++ next :: back).map (fun p => (l.cell p).left) =
      front ++ left :: after := by
    have := ring.left
    rwa [← List.cons_append, frontEq, List.append_assoc, List.append_assoc,
      List.singleton_append, backEq] at this
  rw [List.map_append, List.map_cons] at rights lefts
  obtain ⟨frontRights, rest⟩ := List.append_inj rights (by rw [List.length_map, frontLength])
  obtain ⟨leftRight, afterRights⟩ := List.cons.inj rest
  obtain ⟨beforeLefts, rest⟩ := List.append_inj lefts (by rw [List.length_map, frontLength])
  obtain ⟨nextLeft, backLefts⟩ := List.cons.inj rest
  have known : ∀ x ∈ front ++ left :: after, x ≠ el := by
    rintro x member rfl
    apply fresh
    rwa [← List.cons_append, frontEq, List.append_assoc, List.singleton_append]
  have known' : ∀ x ∈ before ++ next :: back, x ≠ el := by
    rintro x member rfl
    apply fresh
    rw [← backEq, ← List.append_assoc] at member
    exact (List.perm_append_singleton _ _).mem_iff.mp member
  have notLeft : el ≠ left := (known left (by simp)).symm
  have cells := l.insertAfter_cell notLeft (leftRight ▸ known' next (by simp))
  rw [leftRight] at cells
  have frontApart : ∀ x ∈ front, x ≠ left := by
    rintro x member rfl
    exact (List.nodup_append.mp nodup).2.2 x member x List.mem_cons_self rfl
  have afterApart : ∀ x ∈ after, x ≠ left := by
    rintro x member rfl
    exact (List.nodup_cons.mp (List.nodup_append.mp nodup).2.1).1 member
  have beforeApart : ∀ x ∈ before, x ≠ next := by
    rintro x member rfl
    exact (List.nodup_append.mp nodup').2.2 x member x List.mem_cons_self rfl
  have backApart : ∀ x ∈ back, x ≠ next := by
    rintro x member rfl
    exact (List.nodup_cons.mp (List.nodup_append.mp nodup').2.1).1 member
  constructor
  · have frontRights' : front.map (fun p => ((l.insertAfter el left).cell p).right) = before := by
      rw [← frontRights]
      apply List.map_congr_left
      intro x member
      simp only [cells, if_neg (frontApart x member), if_neg (known x (by simp [member]))]
    have afterRights' : after.map (fun p => ((l.insertAfter el left).cell p).right) = back := by
      rw [← afterRights]
      apply List.map_congr_left
      intro x member
      simp only [cells, if_neg (afterApart x member), if_neg (known x (by simp [member]))]
    rw [← List.cons_append, frontEq, List.append_assoc, List.append_assoc, List.map_append,
      frontRights', List.singleton_append, List.map_cons, List.map_cons, afterRights',
      List.cons_append, backEq]
    simp only [cells, if_true, if_neg notLeft]
  · have beforeLefts' : before.map (fun p => ((l.insertAfter el left).cell p).left) = front := by
      rw [← beforeLefts]
      apply List.map_congr_left
      intro x member
      simp only [cells, if_neg (beforeApart x member), if_neg (known' x (by simp [member]))]
    have backLefts' : back.map (fun p => ((l.insertAfter el left).cell p).left) = after := by
      rw [← backLefts]
      apply List.map_congr_left
      intro x member
      simp only [cells, if_neg (backApart x member), if_neg (known' x (by simp [member]))]
    rw [← List.cons_append, frontEq, List.append_assoc, List.append_assoc, List.map_append,
      beforeLefts', List.cons_append, List.map_cons, backEq, List.map_cons, backLefts',
      List.singleton_append]
    simp only [cells, if_true, if_neg (known' next (by simp)).symm]
  · rw [← List.cons_append]
    apply (List.perm_middle.nodup_iff).mpr
    exact List.nodup_cons.mpr ⟨fresh, ring.nodup⟩

end Links

end ListCRDT

/-! ## The sequence of elements -/

/-- An element of the sequence: what a position is called and what it was put behind. -/
structure Element where
  id : ID
  ref : ID
deriving DecidableEq, Repr

/-- Insertion of elements into their sequence. -/
def rga : CausalInsertion Element ID where
  id := Element.id
  isHead := fun element => element.ref = listStart
  refersTo := fun element target => element.ref = target.id

/-- The places of the elements. -/
def pointers (elements : List Element) : List Pointer :=
  elements.map fun element => .position element.id

@[simp]
theorem pointers_append (first second : List Element) :
    pointers (first ++ second) = pointers first ++ pointers second :=
  List.map_append

@[simp]
theorem pointers_cons (element : Element) (elements : List Element) :
    pointers (element :: elements) = .position element.id :: pointers elements := rfl

@[simp]
theorem position_mem_pointers {elements : List Element} {id : ID} :
    .position id ∈ pointers elements ↔ id ∈ elements.map Element.id := by
  simp [pointers]

namespace ListCRDT

/-- The list holds these elements, from the left to the right. -/
structure Represents (l : ListCRDT V) (elements : List Element) : Prop where
  ring : Ring l.cell (pointers elements)
  cells : ∀ element ∈ elements, (l.cell (.position element.id)).id = element.id ∧
    (l.cell (.position element.id)).ref = element.ref
  root : (l.cell .root).id = listStart
  items : ∀ id, l.items id = if IsSentinel id then some .root
    else if id ∈ elements.map Element.id then some (.position id) else none
  proper : ∀ element ∈ elements, ¬ IsSentinel element.id

/-- A new list holds no elements. -/
theorem newList_represents (lid : String) : (newList lid : ListCRDT V).Represents [] := by
  constructor
  · constructor
    · rfl
    · rfl
    · exact List.nodup_singleton _
  · intro element member
    cases member
  · rfl
  · intro id
    rfl
  · intro element member
    cases member

namespace Represents

variable {l : ListCRDT V} {elements before after : List Element}

/-- A list holds no element twice. -/
theorem nodup (represents : l.Represents elements) : (elements.map Element.id).Nodup := by
  have nodup := (List.nodup_cons.mp represents.ring.nodup).2
  rw [pointers] at nodup
  apply List.Nodup.of_map Pointer.position
  rwa [List.map_map]

/-- What is known under an identifier which is not known to the list. -/
theorem unknown (represents : l.Represents elements) {id : ID} (isNew : l.items id = none) :
    ¬ IsSentinel id ∧ id ∉ elements.map Element.id := by
  rw [represents.items] at isNew
  constructor
  · intro isSentinel
    rw [if_pos isSentinel] at isNew
    cases isNew
  · intro member
    rw [if_pos member] at isNew
    split at isNew
    · cases isNew
    · cases isNew

/-- An identifier of no element has no place. -/
theorem items_eq_none (represents : l.Represents elements) {id : ID}
    (notSentinel : ¬ IsSentinel id) (notIn : id ∉ elements.map Element.id) :
    l.items id = none := by
  rw [represents.items, if_neg notSentinel, if_neg notIn]

/-- Every element has its place. -/
theorem items_of_mem (represents : l.Represents elements) {element : Element}
    (member : element ∈ elements) : l.items element.id = some (.position element.id) := by
  rw [represents.items, if_neg (represents.proper element member),
    if_pos (List.mem_map_of_mem member)]

/-- The links of a list do not depend on its values. -/
theorem modify_value (represents : l.Represents elements) (pos : Pointer)
    (value : Option V) :
    (l.modify pos fun p => { p with value := value }).Represents elements := by
  have cells : ∀ x, ((l.modify pos fun p => { p with value := value }).cell x) =
      { l.cell x with value := if x = pos then value else (l.cell x).value } := by
    intro x
    rw [modify_cell]
    by_cases same : x = pos
    · rw [if_pos same, if_pos same, same]
    · rw [if_neg same, if_neg same]
  constructor
  · constructor
    · simp only [cells]
      exact represents.ring.right
    · simp only [cells]
      exact represents.ring.left
    · exact represents.ring.nodup
  · simp only [cells]
    exact represents.cells
  · simp only [cells]
    exact represents.root
  · exact represents.items
  · exact represents.proper

/-- Nothing is known of a position that was not allocated. -/
theorem modify_unknown (represents : l.Represents elements) {id : ID}
    (notIn : id ∉ elements.map Element.id) (f : Position V → Position V) :
    (l.modify (.position id) f).Represents elements := by
  have cells : ∀ x ∈ Pointer.root :: pointers elements,
      (l.modify (.position id) f).cell x = l.cell x := by
    intro x member
    rw [modify_cell, if_neg]
    rintro rfl
    rcases List.mem_cons.mp member with isRoot | isElement
    · cases isRoot
    · exact notIn (position_mem_pointers.mp isElement)
  constructor
  · constructor
    · rw [← represents.ring.right]
      apply List.map_congr_left
      intro x member
      rw [cells x member]
    · rw [← represents.ring.left]
      apply List.map_congr_left
      intro x member
      rw [cells x ((List.perm_append_singleton _ _).mem_iff.mp member)]
    · exact represents.ring.nodup
  · intro element member
    rw [cells _ (List.mem_cons_of_mem _
      (position_mem_pointers.mpr (List.mem_map_of_mem member)))]
    exact represents.cells element member
  · rw [cells _ List.mem_cons_self]
    exact represents.root
  · exact represents.items
  · exact represents.proper

/-- What comes after the last one of the front. -/
theorem right_getLastD (represents : l.Represents (before ++ after)) :
    (l.cell ((pointers before).getLastD .root)).right = (pointers after).headD .root := by
  rcases exists_getLastD_concat Pointer.root (pointers before) with ⟨front, frontEq⟩
  have right := represents.ring.right
  rw [pointers_append, ← List.cons_append, frontEq, List.append_assoc, List.append_assoc,
    List.singleton_append, List.map_append, List.map_cons] at right
  have length : front.length = (pointers before).length := by
    have := congrArg List.length frontEq
    simpa using this.symm
  have rest := (List.append_inj right (by rw [List.length_map, length])).2
  cases after with
  | nil => exact (List.cons.inj rest).1
  | cons element after => exact (List.cons.inj rest).1

theorem getLastD_concat (before : List Element) (element : Element) :
    (pointers (before ++ [element])).getLastD .root = .position element.id := by
  rw [pointers_append]
  exact List.getLastD_concat

/-- The loop stops where the element belongs. -/
theorem skipGreater_converges (represents : l.Represents (before ++ after)) (new : Element) :
    ∃ skipped kept, after = skipped ++ kept ∧
      rga.skip new after = skipped ++ new :: kept ∧
      Converges (fun fuel => l.skipGreater new.id fuel ((pointers before).getLastD .root))
        (.ok ((pointers (before ++ skipped)).getLastD .root)) := by
  have right := represents.right_getLastD
  induction after generalizing before with
  | nil =>
      refine ⟨[], [], rfl, rfl, ?_⟩
      have atEnd : (l.cell ((pointers before).getLastD .root)).right = .root := right
      rw [List.append_nil]
      apply (Converges.const _).of_succ
      intro fuel
      rw [skipGreater, if_pos atEnd]
      rfl
  | cons element after induction =>
      have right' : (l.cell ((pointers before).getLastD .root)).right =
          .position element.id := right
      have notRoot : (l.cell ((pointers before).getLastD .root)).right ≠ .root := by
        rw [right']
        exact Pointer.noConfusion
      have isNext : l.next ((pointers before).getLastD .root) =
          some (.position element.id) := by
        rw [next, if_neg notRoot, right']
      have nextId : (l.cell (.position element.id)).id = element.id :=
        (represents.cells element (by simp)).1
      by_cases less : element.id < new.id
      · refine ⟨[], element :: after, rfl, ?_, ?_⟩
        · exact if_pos less
        · rw [List.append_nil]
          apply (Converges.const _).of_succ
          intro fuel
          rw [skipGreater, if_neg notRoot, isNext]
          simp only [nextId, ID.less_eq, decide_eq_true less, if_true]
          rfl
      · have represents' : l.Represents ((before ++ [element]) ++ after) := by
          rwa [List.append_assoc]
        rcases induction represents' represents'.right_getLastD with
          ⟨skipped, kept, split, skips, converges⟩
        refine ⟨element :: skipped, kept, ?_, ?_, ?_⟩
        · rw [split, List.cons_append]
        · rw [CausalInsertion.skip, skips]
          exact if_neg less
        · rw [List.append_assoc] at converges
          apply converges.of_succ
          intro fuel
          rw [skipGreater, if_neg notRoot, isNext]
          simp only [nextId, ID.less_eq, decide_eq_false less, right', getLastD_concat]
          rfl

/-- Linking the position of a new element puts it into the sequence. -/
theorem insertAfter (represents : l.Represents (before ++ after)) (new : Element)
    (notSentinel : ¬ IsSentinel new.id) (notIn : new.id ∉ (before ++ after).map Element.id)
    (allocated : (l.cell (.position new.id)).id = new.id ∧
      (l.cell (.position new.id)).ref = new.ref) :
    ({ l.insertAfter (.position new.id) ((pointers before).getLastD .root) with
        items := Function.update l.items new.id (some (.position new.id)) } :
      ListCRDT V).Represents (before ++ new :: after) := by
  have fresh : .position new.id ∉ Pointer.root :: (pointers before ++ pointers after) := by
    rw [← pointers_append, List.mem_cons, position_mem_pointers]
    rintro (isRoot | isElement)
    · cases isRoot
    · exact notIn isElement
  have ring := represents.ring
  rw [pointers_append] at ring
  have notLeft : .position new.id ≠ (pointers before).getLastD .root := by
    intro same
    apply fresh
    rw [same]
    rcases List.mem_cons.mp List.getLastD_mem_cons with isRoot | isBefore
    · rw [isRoot]
      exact List.mem_cons_self
    · exact List.mem_cons_of_mem _ (List.mem_append_left _ isBefore)
  have notNext : (l.cell ((pointers before).getLastD .root)).right ≠ .position new.id := by
    rw [represents.right_getLastD]
    intro same
    cases after with
    | nil => cases same
    | cons element after =>
        apply fresh
        rw [← same]
        simp
  have cells := l.insertAfter_cell notLeft notNext
  constructor
  · rw [pointers_append, pointers_cons]
    exact ring.insertAfter fresh
  · intro element member
    simp only [cells]
    rcases List.mem_cons.mp (List.perm_middle.mem_iff.mp member) with rfl | old
    · exact allocated
    · exact represents.cells element old
  · simp only [cells]
    exact represents.root
  · intro id
    have inserted : id ∈ (before ++ new :: after).map Element.id ↔
        id = new.id ∨ id ∈ (before ++ after).map Element.id := by
      rw [(List.perm_middle.map Element.id).mem_iff, List.map_cons, List.mem_cons]
    change Function.update l.items new.id _ id = _
    by_cases same : id = new.id
    · rw [same, Function.update_self, if_neg notSentinel, if_pos (by simp)]
    · rw [Function.update_of_ne same, represents.items]
      simp only [inserted, same, false_or]
  · intro element member
    rcases List.mem_cons.mp (List.perm_middle.mem_iff.mp member) with rfl | old
    · exact notSentinel
    · exact represents.proper element old

/-- A pointer to the root or to an element. -/
def Knows (elements : List Element) (pos : Pointer) : Prop :=
  pos = .root ∨ ∃ element ∈ elements, pos = .position element.id

/-- The place where `rga` starts to skip. -/
theorem exists_start (represents : l.Represents elements) {parent : Pointer}
    (known : Knows elements parent) (id : ID) :
    ∃ before after, elements = before ++ after ∧
      parent = (pointers before).getLastD .root ∧
      rga.insert ⟨id, (l.cell parent).id⟩ elements =
        before ++ rga.skip ⟨id, (l.cell parent).id⟩ after := by
  rcases known with rfl | ⟨target, member, rfl⟩
  · refine ⟨[], elements, rfl, rfl, ?_⟩
    have isHead : rga.isHead ⟨id, (l.cell .root).id⟩ = true :=
      decide_eq_true represents.root
    rw [CausalInsertion.insert, if_pos isHead, List.nil_append]
  · rw [(represents.cells target member).1]
    rcases List.append_of_mem member with ⟨front, rest, rfl⟩
    refine ⟨front ++ [target], rest, ?_, ?_, ?_⟩
    · rw [List.append_assoc, List.singleton_append]
    · exact (getLastD_concat front target).symm
    · have notHead : ¬ rga.isHead ⟨id, target.id⟩ = true := by
        intro isHead
        exact represents.proper target member (.inl (of_decide_eq_true isHead))
      have notBefore : ∀ item ∈ front, ¬ rga.refersTo ⟨id, target.id⟩ item = true := by
        intro item inFront refers
        have same : target.id = item.id := of_decide_eq_true refers
        have nodup := represents.nodup
        rw [List.map_append, List.map_cons] at nodup
        exact (List.nodup_append.mp nodup).2.2 _ (List.mem_map_of_mem inFront) _
          List.mem_cons_self same.symm
      rw [CausalInsertion.insert, if_neg notHead,
        CausalInsertion.after_append notBefore (decide_eq_true rfl),
        List.append_assoc, List.singleton_append]

end Represents

/-- What an integration does to a list. -/
structure Integrated (l : ListCRDT V) (elements : List Element) (new : Element)
    (v : Option V) (l' : ListCRDT V) : Prop where
  represents : l'.Represents (rga.insert new elements)
  id : l'.id = l.id
  value : ∀ pos, (l'.cell pos).value =
    if pos = .position new.id then v else (l.cell pos).value

/-- A new identifier is integrated at its place in the sequence. -/
theorem Represents.integrate_converges {l : ListCRDT V} {elements : List Element}
    (represents : l.Represents elements) {parent : Pointer}
    (known : Represents.Knows elements parent) {id : ID} (isNew : l.items id = none)
    (v : Option V) :
    ∃ l', Converges (l.integrate id parent v) (.ok (.ok (.position id, l'))) ∧
      l.Integrated elements ⟨id, (l.cell parent).id⟩ v l' := by
  rcases represents.unknown isNew with ⟨notSentinel, notIn⟩
  rcases represents.exists_start known id with ⟨before, after, rfl, isParent, insert⟩
  have allocated := represents.modify_unknown notIn
    fun _ => ⟨id, (l.cell parent).id, .root, .root, none⟩
  rcases allocated.skipGreater_converges ⟨id, (l.cell parent).id⟩ with
    ⟨skipped, kept, rfl, skips, converges⟩
  rw [← isParent] at converges
  rw [← List.append_assoc] at allocated notIn
  have linked := allocated.insertAfter ⟨id, (l.cell parent).id⟩ notSentinel notIn
    (by rw [modify_cell, if_pos rfl]; exact ⟨rfl, rfl⟩)
  rw [skips] at insert
  have run : l.integrate id parent v = fun fuel =>
      (l.modify (.position id) fun _ =>
        ⟨id, (l.cell parent).id, .root, .root, none⟩).skipGreater id fuel parent >>=
      fun left => .ok (.ok (.position id,
        { ((l.modify (.position id) fun _ =>
            ⟨id, (l.cell parent).id, .root, .root, none⟩).insertAfter (.position id) left).modify
              (.position id) (fun pos => { pos with value := v }) with
          items := Function.update l.items id (some (.position id)) })) := by
    funext fuel
    rw [integrate, if_neg (by rw [isNew]; exact Bool.false_ne_true)]
    rfl
  rw [run]
  refine ⟨_, converges.bind (.const _), ?_, ?_, ?_⟩
  · rw [insert, ← List.append_assoc]
    exact linked.modify_value (.position id) v
  · rfl
  · intro pos
    dsimp only
    rw [modify_cell]
    by_cases isPosition : pos = .position id
    · rw [if_pos isPosition, if_pos isPosition]
    · rw [if_neg isPosition, if_neg isPosition, insertAfter_value, modify_cell,
        if_neg isPosition]

end ListCRDT

end Mintter.Crdt
