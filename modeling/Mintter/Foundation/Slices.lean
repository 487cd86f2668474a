import Mathlib.Tactic

/-!
# Growing slices over shared arrays

A slice is a window on the front of a backing array.  `append` writes into the
array when it has room behind the window, and copies the window to a new array
with a greater capacity otherwise.  Two slices may share an array, so an append
can change what another slice reads.

The capacities are those of the runtime for items of 16 bytes.  They go 0, 1,
2, 4: an array built by appending has room only behind at least three items.
So the first three items that a slice reads never change
(`Grown.contents_of_short`).
-/

namespace Mintter.Foundation

/-- The first `length` cells of an array. -/
structure Slice where
  array : Nat
  length : Nat
deriving DecidableEq, Repr

/-- The backing arrays; the length of an array is its capacity. -/
abbrev Arrays (α : Type) := List (List α)

/-- There is one array without cells. -/
def noArrays {α : Type} : Arrays α := [[]]

/-! ## Capacities -/

/-- The sizes in bytes of allocations from 8 to 32 KiB. -/
def sizeClasses : List Nat :=
  [8192, 9472, 9728, 10240, 10880, 12288, 13568, 14336, 16384, 18432, 19072,
    20480, 21760, 24576, 27264, 28672, 32768]

/-- The size that is allocated: a size class, or whole pages above them. -/
def roundupsize (size : Nat) : Nat :=
  (sizeClasses.find? (size ≤ ·)).getD ((size + 8191) / 8192 * 8192)

/-- The capacity for one more item: doubled at first, then a quarter more. -/
def growslice (oldCap : Nat) : Nat :=
  if oldCap = 0 then 1
  else if oldCap < 256 then 2 * oldCap
  else roundupsize (16 * (oldCap + (oldCap + 768) / 4)) / 16

theorem le_roundupsize (size : Nat) : size ≤ roundupsize size := by
  rw [roundupsize]
  cases found : sizeClasses.find? (size ≤ ·) with
  | none =>
      simp only [Option.getD_none]
      omega
  | some bytes => simpa using List.find?_some found

/-- A slice that grows has room for one more item. -/
theorem lt_growslice (oldCap : Nat) : oldCap < growslice oldCap := by
  rw [growslice]
  split_ifs
  · omega
  · omega
  · have := le_roundupsize (16 * (oldCap + (oldCap + 768) / 4))
    omega

/-- The capacity of a slice that was built by appending items one by one. -/
def capacity : Nat → Nat
  | 0 => 0
  | length + 1 =>
      if length < capacity length then capacity length
      else growslice (capacity length)

/-- Up to two items there is no room behind them. -/
theorem three_le_of_lt_capacity {length : Nat}
    (room : length < capacity length) : 3 ≤ length := by
  by_contra short
  interval_cases length <;> simp [capacity, growslice] at room

namespace Slice

variable {α : Type}

/-- The slice of the array without cells. -/
def nil : Slice := ⟨0, 0⟩

/-- The cells of the backing array of a slice. -/
def cells (arrays : Arrays α) (s : Slice) : List α :=
  arrays.getD s.array []

/-- What the slice reads. -/
def contents (arrays : Arrays α) (s : Slice) : List α :=
  (s.cells arrays).take s.length

/-- Append an item.  The cells behind a copied window are not read. -/
def append [Inhabited α] (arrays : Arrays α) (s : Slice) (item : α) :
    Arrays α × Slice :=
  if s.length < (s.cells arrays).length then
    (arrays.set s.array ((s.cells arrays).set s.length item),
      ⟨s.array, s.length + 1⟩)
  else
    (arrays ++ [s.cells arrays ++
        item :: List.replicate (growslice (s.cells arrays).length -
          ((s.cells arrays).length + 1)) default],
      ⟨arrays.length, s.length + 1⟩)

/-- The window lies within an existing array. -/
structure Fits (arrays : Arrays α) (s : Slice) : Prop where
  array_lt : s.array < arrays.length
  length_le : s.length ≤ (s.cells arrays).length

/-- A slice built by appending to the nil slice. -/
structure Grown (arrays : Arrays α) (s : Slice) : Prop
    extends Fits arrays s where
  capacity_eq : (s.cells arrays).length = capacity s.length

theorem Grown.room {arrays : Arrays α} {s : Slice} (grown : s.Grown arrays)
    (room : s.length < (s.cells arrays).length) : 3 ≤ s.length :=
  three_le_of_lt_capacity (grown.capacity_eq ▸ room)

theorem nil_grown : nil.Grown (noArrays : Arrays α) where
  array_lt := by simp [nil, noArrays]
  length_le := by simp [nil]
  capacity_eq := by simp [nil, noArrays, cells, capacity]

@[simp]
theorem contents_nil (arrays : Arrays α) : nil.contents arrays = [] := by
  simp [contents, nil]

/-- What a slice shows has the length of the slice. -/
theorem Fits.length_contents {arrays : Arrays α} {s : Slice}
    (fits : s.Fits arrays) : (s.contents arrays).length = s.length := by
  simpa [contents] using fits.length_le

section Cells

variable {arrays : Arrays α} {s t : Slice}

/-- An append finds room or copies. -/
theorem Fits.room_or_full (fits : s.Fits arrays) :
    s.length < (s.cells arrays).length ∨
      s.length = (s.cells arrays).length :=
  lt_or_eq_of_le fits.length_le

/-- Writing an array changes the slices of that array only. -/
theorem cells_set (inside : t.array < arrays.length) (row : List α) :
    t.cells (arrays.set s.array row) =
      if t.array = s.array then row else t.cells arrays := by
  split
  · next same => simp [cells, same ▸ inside, same]
  · next differ =>
      simp [cells, List.getElem?_set_ne (Ne.symm differ)]

theorem cells_append_old (inside : t.array < arrays.length) (row : List α) :
    t.cells (arrays ++ [row]) = t.cells arrays := by
  simp [cells, List.getElem?_append_left inside]

theorem cells_append_new (length : Nat) (row : List α) :
    cells (arrays ++ [row]) ⟨arrays.length, length⟩ = row := by
  simp [cells]

/-- One more array leaves the other ones as they are. -/
theorem Fits.beside (fits : t.Fits arrays) (row : List α) :
    t.Fits (arrays ++ [row]) ∧ t.contents (arrays ++ [row]) = t.contents arrays := by
  have same := cells_append_old fits.array_lt row
  refine ⟨⟨?_, same ▸ fits.length_le⟩, by rw [contents, same, contents]⟩
  rw [List.length_append]
  exact Nat.lt_add_right _ fits.array_lt

theorem Grown.beside (grown : t.Grown arrays) (row : List α) :
    t.Grown (arrays ++ [row]) :=
  ⟨(grown.toFits.beside row).1,
    cells_append_old grown.array_lt row ▸ grown.capacity_eq⟩

/-- The new array is read as a whole. -/
theorem fits_row (arrays : Arrays α) (row : List α) :
    Fits (arrays ++ [row]) ⟨arrays.length, row.length⟩ ∧
      contents (arrays ++ [row]) ⟨arrays.length, row.length⟩ = row := by
  have new : cells (arrays ++ [row]) ⟨arrays.length, row.length⟩ = row :=
    cells_append_new row.length row
  exact ⟨⟨by simp, by rw [new]⟩, by rw [contents, new, List.take_length]⟩

end Cells

section Append

variable [Inhabited α] {arrays : Arrays α} {s t : Slice}

/-- With room behind it, a slice is appended to in place. -/
theorem append_of_room (room : s.length < (s.cells arrays).length)
    (item : α) : s.append arrays item =
      (arrays.set s.array ((s.cells arrays).set s.length item),
        ⟨s.array, s.length + 1⟩) :=
  if_pos room

/-- A full slice is copied into a new array. -/
theorem append_of_full (full : s.length = (s.cells arrays).length)
    (item : α) : s.append arrays item =
      (arrays ++ [s.cells arrays ++
          item :: List.replicate (growslice (s.cells arrays).length -
            ((s.cells arrays).length + 1)) default],
        ⟨arrays.length, s.length + 1⟩) :=
  if_neg full.not_lt

@[simp]
theorem append_length (arrays : Arrays α) (s : Slice) (item : α) :
    (s.append arrays item).2.length = s.length + 1 := by
  rw [append]
  split <;> rfl

/-- Other slices keep their array and its capacity. -/
theorem Fits.of_append (fits : s.Fits arrays) (other : t.Fits arrays)
    (item : α) : t.Fits (s.append arrays item).1 ∧
      (t.cells (s.append arrays item).1).length =
        (t.cells arrays).length := by
  have inside := other.array_lt
  rcases fits.room_or_full with room | full
  · rw [append_of_room room]
    have same : (t.cells (arrays.set s.array
        ((s.cells arrays).set s.length item))).length =
          (t.cells arrays).length := by
      rw [cells_set inside]
      split
      · next sameArray => simp [cells, sameArray]
      · rfl
    exact ⟨⟨by simpa using inside, same ▸ other.length_le⟩, same⟩
  · rw [append_of_full full]
    have same := cells_append_old (t := t) inside (s.cells arrays ++
      item :: List.replicate (growslice (s.cells arrays).length -
        ((s.cells arrays).length + 1)) default)
    refine ⟨⟨?_, same ▸ other.length_le⟩, congrArg List.length same⟩
    simpa using Nat.lt_succ_of_lt inside

/-- Appending to one slice keeps what is known of another. -/
theorem Grown.of_append (fits : s.Fits arrays) (other : t.Grown arrays)
    (item : α) : t.Grown (s.append arrays item).1 := by
  obtain ⟨fits', same⟩ := fits.of_append other.toFits item
  exact ⟨fits', same ▸ other.capacity_eq⟩

/-- Appending to a grown slice gives a grown slice that reads one more item. -/
theorem Grown.append (grown : s.Grown arrays) (item : α) :
    (s.append arrays item).2.Grown (s.append arrays item).1 ∧
      (s.append arrays item).2.contents (s.append arrays item).1 =
        s.contents arrays ++ [item] := by
  have inside := grown.array_lt
  rcases grown.room_or_full with room | full
  · have row := cells_set (t := ⟨s.array, s.length + 1⟩) (s := s) inside
      ((s.cells arrays).set s.length item)
    rw [if_pos rfl] at row
    rw [append_of_room room]
    refine ⟨⟨⟨by simpa using inside, ?_⟩, ?_⟩, ?_⟩
    · rw [row, List.length_set]
      exact room
    · have isRoom := room
      rw [grown.capacity_eq] at isRoom
      rw [row, List.length_set, grown.capacity_eq, capacity, if_pos isRoom]
    · rw [contents, row, List.take_add_one, List.take_set_of_le le_rfl,
        List.getElem?_set_self room]
      rfl
  · have row := @cells_append_new _ arrays (s.length + 1)
      (s.cells arrays ++
        item :: List.replicate (growslice (s.cells arrays).length -
          ((s.cells arrays).length + 1)) default)
    rw [append_of_full full]
    refine ⟨⟨⟨by simp, ?_⟩, ?_⟩, ?_⟩
    · rw [row, full]
      simp
    · have larger := lt_growslice (s.cells arrays).length
      have isFull : ¬ s.length < capacity s.length := by
        rw [← grown.capacity_eq]
        exact full.not_lt
      rw [row, capacity, if_neg isFull, ← grown.capacity_eq]
      simp only [List.length_append, List.length_cons, List.length_replicate]
      omega
    · rw [contents, row, contents, ← full, full]
      simp [List.take_append]

/-- An append changes no slice that does not reach behind the window. -/
theorem Fits.contents_of_behind (fits : s.Fits arrays) (other : t.Fits arrays)
    (behind : t.array = s.array → t.length ≤ s.length) (item : α) :
    t.contents (s.append arrays item).1 = t.contents arrays := by
  have inside := other.array_lt
  rcases fits.room_or_full with room | full
  · rw [append_of_room room, contents, cells_set inside]
    split
    · next same =>
        have sameCells : t.cells arrays = s.cells arrays := by
          rw [cells, same, cells]
        rw [contents, sameCells, List.take_set_of_le (behind same)]
    · rfl
  · rw [append_of_full full, contents, contents, cells_append_old inside]

/-- An append to a grown slice changes no slice of at most three items. -/
theorem Grown.contents_of_short (grown : s.Grown arrays)
    (other : t.Fits arrays) (short : t.length ≤ 3) (item : α) :
    t.contents (s.append arrays item).1 = t.contents arrays := by
  rcases grown.room_or_full with room | full
  · exact grown.contents_of_behind other
      (fun _ => short.trans (grown.room room)) item
  · refine grown.contents_of_behind other (fun same => ?_) item
    have sameCells : t.cells arrays = s.cells arrays := by
      rw [cells, same, cells]
    exact full ▸ sameCells ▸ other.length_le

/-- A slice without room is copied to a new array. -/
theorem append_array_of_full (full : s.length = (s.cells arrays).length)
    (item : α) : (s.append arrays item).2.array = arrays.length := by
  rw [append_of_full full]

/-- A slice with room stays in its array. -/
theorem append_array_of_room (room : s.length < (s.cells arrays).length)
    (item : α) : (s.append arrays item).2.array = s.array := by
  rw [append_of_room room]

/-- Appending an item twice in the same place is appending it once. -/
theorem Fits.append_append (fits : s.Fits arrays)
    (room : s.length < (s.cells arrays).length) (item : α) :
    s.append (s.append arrays item).1 item = s.append arrays item := by
  have row := cells_set (s := s) fits.array_lt
    ((s.cells arrays).set s.length item)
  rw [if_pos rfl] at row
  have room' : s.length < (s.cells (s.append arrays item).1).length := by
    rw [append_of_room room, row, List.length_set]
    exact room
  rw [append_of_room room', append_of_room room]
  simp only
  rw [row, List.set_set, List.set_set]

/-- A slice made by an append still reads the same after another such append. -/
theorem Grown.contents_append_append (grown : s.Grown arrays) (item : α) :
    (s.append arrays item).2.contents
        (s.append (s.append arrays item).1 item).1 =
      (s.append arrays item).2.contents (s.append arrays item).1 := by
  rcases grown.room_or_full with room | full
  · rw [grown.append_append room]
  · have fits := (grown.toFits.of_append grown.toFits item).1
    refine fits.contents_of_behind (grown.append item).1.toFits ?_ item
    intro same
    rw [append_array_of_full full] at same
    exact absurd same.symm grown.array_lt.ne

end Append

end Slice

end Mintter.Foundation
