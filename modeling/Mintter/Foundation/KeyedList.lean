import Mathlib.Tactic
import Mathlib.Data.Prod.Lex
import Mathlib.Data.String.Basic

/-!
# Ordered sets as sorted lists

An ordered collection with unique keys is a list that is strictly sorted by
key.  `set` inserts an item or replaces the one with its key, `delete` removes
a key, and `ascend` and `descend` list the items from a pivot on.

The second half is about keys that are pairs of a group and a rank: the items
of one group are consecutive, inserting an item between two ranks of a group
inserts it between the two items, and the other groups do not change.
-/

namespace Mintter.Foundation

/-! ## The least string -/

/-- No string is less than the empty one. -/
theorem empty_le_string (s : String) : "" ≤ s :=
  not_lt.mp fun less => List.not_lt_nil _ (String.lt_iff_toList_lt.mp less)

theorem empty_lt_string {s : String} (nonempty : s ≠ "") : "" < s :=
  lt_of_le_of_ne (empty_le_string s) (Ne.symm nonempty)

/-! ## The last item -/

/-- An item of a list with a last item is that one, or it comes before it. -/
theorem concat_eq_append_cons_iff {α : Type} {items before after : List α} {last item : α} :
    items ++ [last] = before ++ item :: after ↔
      (before = items ∧ item = last ∧ after = []) ∨
        ∃ between, after = between ++ [last] ∧ items = before ++ item :: between := by
  constructor
  · intro same
    rcases List.eq_nil_or_concat' after with rfl | ⟨between, last', rfl⟩
    · rcases List.append_inj' same rfl with ⟨rfl, isLast⟩
      cases isLast
      exact .inl ⟨rfl, rfl, rfl⟩
    · rw [← List.cons_append, ← List.append_assoc] at same
      rcases List.append_inj' same rfl with ⟨rfl, isLast⟩
      cases isLast
      exact .inr ⟨between, rfl, rfl⟩
  · rintro (⟨rfl, rfl, rfl⟩ | ⟨between, rfl, rfl⟩)
    · exact rfl
    · simp

end Mintter.Foundation

namespace Mintter.Foundation.KeyedList

variable {α κ : Type} [LinearOrder κ] (key : α → κ)

/-- Strictly increasing keys. -/
def Sorted (items : List α) : Prop :=
  items.Pairwise fun first second => key first < key second

/-- Insert an item, or replace the item with the same key. -/
def set (item : α) : List α → List α
  | [] => [item]
  | head :: rest =>
      if key item < key head then item :: head :: rest
      else if key item = key head then item :: rest
      else head :: set item rest

/-- Remove the item with the given key. -/
def delete (pivot : κ) (items : List α) : List α :=
  items.filter fun item => key item ≠ pivot

/-- The items from the pivot on, in increasing order. -/
def ascend (pivot : κ) (items : List α) : List α :=
  items.filter fun item => pivot ≤ key item

/-- The items up to the pivot, in decreasing order. -/
def descend (pivot : κ) (items : List α) : List α :=
  (items.filter fun item => key item ≤ pivot).reverse

variable {key} {item other : α} {items items' : List α} {pivot : κ}

theorem Sorted.nil : Sorted key ([] : List α) := List.Pairwise.nil

theorem Sorted.nodup (sorted : Sorted key items) : items.Nodup :=
  sorted.imp fun less same => absurd (congrArg key same) less.ne

/-- In a sorted list, items with the same key are the same. -/
theorem Sorted.key_injective (sorted : Sorted key items)
    (member : item ∈ items) (member' : other ∈ items)
    (same : key item = key other) : item = other := by
  induction items with
  | nil => simp at member
  | cons head rest induction =>
      obtain ⟨smaller, sortedRest⟩ := List.pairwise_cons.mp sorted
      rcases List.mem_cons.mp member with rfl | inRest
      · rcases List.mem_cons.mp member' with rfl | inRest'
        · rfl
        · exact absurd same (smaller _ inRest').ne
      · rcases List.mem_cons.mp member' with rfl | inRest'
        · exact absurd same.symm (smaller _ inRest).ne
        · exact induction sortedRest inRest inRest'

theorem Sorted.filter (sorted : Sorted key items) (keep : α → Bool) :
    Sorted key (items.filter keep) :=
  List.Pairwise.filter keep sorted

/-- A sorted list is determined by its items. -/
theorem Sorted.eq_of_perm (sorted : Sorted key items)
    (sorted' : Sorted key items') (perm : items.Perm items') :
    items = items' :=
  perm.eq_of_pairwise
    (fun _ _ _ _ less greater => absurd less greater.not_gt) sorted sorted'

/-- Sorted lists with the same items are equal. -/
theorem Sorted.eq_of_mem_iff (sorted : Sorted key items)
    (sorted' : Sorted key items')
    (same : ∀ item, item ∈ items ↔ item ∈ items') : items = items' :=
  sorted.eq_of_perm sorted'
    ((List.perm_ext_iff_of_nodup sorted.nodup sorted'.nodup).mpr same)

/-! ## Inserting and deleting -/

theorem mem_set_subset (member : other ∈ set key item items) :
    other = item ∨ other ∈ items := by
  induction items with
  | nil => simpa [set] using member
  | cons head rest induction =>
      rw [set] at member
      split_ifs at member with less same
      · simpa using member
      · rcases List.mem_cons.mp member with rfl | inRest
        · exact Or.inl rfl
        · exact Or.inr (List.mem_cons_of_mem _ inRest)
      · rcases List.mem_cons.mp member with rfl | inRest
        · exact Or.inr List.mem_cons_self
        · rcases induction inRest with rfl | old
          · exact Or.inl rfl
          · exact Or.inr (List.mem_cons_of_mem _ old)

/-- Setting an item keeps the list sorted. -/
theorem sorted_set (sorted : Sorted key items) (item : α) :
    Sorted key (set key item items) := by
  induction items with
  | nil => exact List.pairwise_singleton _ _
  | cons head rest induction =>
      obtain ⟨smaller, sortedRest⟩ := List.pairwise_cons.mp sorted
      rw [set]
      split_ifs with less same
      · refine List.pairwise_cons.mpr ⟨?_, sorted⟩
        intro later member
        rcases List.mem_cons.mp member with rfl | inRest
        · exact less
        · exact less.trans (smaller _ inRest)
      · refine List.pairwise_cons.mpr ⟨?_, sortedRest⟩
        exact fun later inRest => same ▸ smaller _ inRest
      · refine List.pairwise_cons.mpr ⟨?_, induction sortedRest⟩
        intro later member
        rcases mem_set_subset member with rfl | inRest
        · exact lt_of_le_of_ne (not_lt.mp less) (Ne.symm same)
        · exact smaller _ inRest

/-- Inserting an item with a new key adds just that item. -/
theorem set_perm_cons (fresh : ∀ other ∈ items, key other ≠ key item) :
    (set key item items).Perm (item :: items) := by
  induction items with
  | nil => exact List.Perm.refl _
  | cons head rest induction =>
      rw [set]
      split_ifs with less same
      · exact List.Perm.refl _
      · exact absurd same.symm (fresh head List.mem_cons_self)
      · refine (List.Perm.cons head (induction fun other member =>
          fresh other (List.mem_cons_of_mem _ member))).trans ?_
        exact List.Perm.swap _ _ _

/-- Setting an item with a new key adds it. -/
theorem mem_set_of_fresh (fresh : ∀ other ∈ items, key other ≠ key item) :
    other ∈ set key item items ↔ other = item ∨ other ∈ items := by
  rw [(set_perm_cons fresh).mem_iff, List.mem_cons]

/-- An item with a greater key than all others goes to the end. -/
theorem set_of_greatest (greatest : ∀ other ∈ items, key other < key item) :
    set key item items = items ++ [item] := by
  induction items with
  | nil => rfl
  | cons head rest induction =>
      have less := greatest head List.mem_cons_self
      rw [set, if_neg less.not_gt, if_neg less.ne',
        induction fun other member =>
          greatest other (List.mem_cons_of_mem _ member)]
      rfl

/-- The greatest item is replaced by one with the same key. -/
theorem set_of_last {last : α} (greatest : ∀ other ∈ items, key other < key item)
    (same : key last = key item) :
    set key item (items ++ [last]) = items ++ [item] := by
  induction items with
  | nil => simp [set, same]
  | cons head rest induction =>
      have less := greatest head List.mem_cons_self
      rw [List.cons_append, set, if_neg less.not_gt, if_neg less.ne',
        induction fun other member =>
          greatest other (List.mem_cons_of_mem _ member)]
      rfl

/-- Setting an item that is present changes nothing. -/
theorem set_eq_self (sorted : Sorted key items) (member : item ∈ items) :
    set key item items = items := by
  induction items with
  | nil => simp at member
  | cons head rest induction =>
      obtain ⟨smaller, sortedRest⟩ := List.pairwise_cons.mp sorted
      rcases List.mem_cons.mp member with rfl | inRest
      · simp [set]
      · have less := smaller _ inRest
        rw [set, if_neg less.not_gt, if_neg less.ne',
          induction sortedRest inRest]

/-- The item stands in place of one with its key. -/
theorem mem_set_iff (sorted : Sorted key items) :
    other ∈ set key item items ↔ other = item ∨ other ∈ items ∧ key other ≠ key item := by
  induction items with
  | nil => simp [set]
  | cons head rest induction =>
      rcases List.pairwise_cons.mp sorted with ⟨smaller, sortedRest⟩
      rw [set]
      split_ifs with less same
      · -- The item comes first, and all keys behind it are greater.
        have greater : ∀ next ∈ head :: rest, key next ≠ key item := by
          intro next member
          rcases List.mem_cons.mp member with rfl | inRest
          · exact less.ne'
          · exact (less.trans (smaller next inRest)).ne'
        rw [List.mem_cons]
        exact or_congr_right ⟨fun member => ⟨member, greater other member⟩, And.left⟩
      · have greater : ∀ next ∈ rest, key next ≠ key item := fun next inRest =>
          same ▸ (smaller next inRest).ne'
        rw [List.mem_cons, List.mem_cons]
        constructor
        · rintro (isItem | inRest)
          · exact .inl isItem
          · exact .inr ⟨.inr inRest, greater other inRest⟩
        · rintro (isItem | ⟨rfl | inRest, differs⟩)
          · exact .inl isItem
          · exact absurd same.symm differs
          · exact .inr inRest
      · rw [List.mem_cons, List.mem_cons, induction sortedRest]
        constructor
        · rintro (rfl | isItem | ⟨inRest, differs⟩)
          · exact .inr ⟨.inl rfl, Ne.symm same⟩
          · exact .inl isItem
          · exact .inr ⟨.inr inRest, differs⟩
        · rintro (isItem | ⟨rfl | inRest, differs⟩)
          · exact .inr (.inl isItem)
          · exact .inl rfl
          · exact .inr (.inr ⟨inRest, differs⟩)

/-- Only the item itself may already have its key. -/
theorem mem_set_of_agree (sorted : Sorted key items)
    (agree : ∀ other ∈ items, key other = key item → other = item) :
    other ∈ set key item items ↔ other = item ∨ other ∈ items := by
  rw [mem_set_iff sorted]
  constructor
  · exact Or.imp_right And.left
  · rintro (isItem | old)
    · exact .inl isItem
    · by_cases same : key other = key item
      · exact .inl (agree other old same)
      · exact .inr ⟨old, same⟩

/-- Inserting into the image of a list. -/
theorem map_set {β : Type} (view : β → α) (item : β) (items : List β) :
    (set (fun other => key (view other)) item items).map view =
      set key (view item) (items.map view) := by
  induction items with
  | nil => rfl
  | cons head rest induction =>
      rw [set, List.map_cons, set]
      split_ifs
      · rfl
      · rfl
      · rw [List.map_cons, induction]

/--
A part of the list that is sorted, and before which only smaller keys stand,
is inserted into on its own.
-/
theorem filter_set {keep : α → Bool}
    (byKey : ∀ first second, key first = key second →
      keep first = keep second)
    (ordered : items.Pairwise fun first second =>
      keep second → key first < key second) (item : α) :
    (set key item items).filter keep =
      if keep item then set key item (items.filter keep)
      else items.filter keep := by
  induction items with
  | nil => cases kept : keep item <;> simp [set, kept]
  | cons head rest induction =>
      obtain ⟨smaller, orderedRest⟩ := List.pairwise_cons.mp ordered
      have shape := induction orderedRest
      rw [set]
      by_cases kept : keep item = true
      · rw [if_pos kept] at shape ⊢
        split_ifs with less same
        · -- The new item stands before every kept item.
          rw [List.filter_cons_of_pos kept]
          cases first : (head :: rest).filter keep with
          | nil => rfl
          | cons next others =>
              have member : next ∈ (head :: rest).filter keep := by
                simp [first]
              obtain ⟨present, isKept⟩ := List.mem_filter.mp member
              have below : key item < key next := by
                rcases List.mem_cons.mp present with rfl | inRest
                · exact less
                · exact less.trans (smaller next inRest isKept)
              rw [set, if_pos below]
        · have keptHead : keep head = true := byKey _ _ same ▸ kept
          rw [List.filter_cons_of_pos kept, List.filter_cons_of_pos keptHead,
            set, if_neg less, if_pos same]
        · by_cases keptHead : keep head = true
          · rw [List.filter_cons_of_pos keptHead,
              List.filter_cons_of_pos keptHead, shape, set, if_neg less,
              if_neg same]
          · rw [List.filter_cons_of_neg keptHead,
              List.filter_cons_of_neg keptHead, shape]
      · rw [if_neg kept] at shape ⊢
        split_ifs with less same
        · rw [List.filter_cons_of_neg kept]
        · have dropped : ¬ keep head = true := byKey _ _ same ▸ kept
          rw [List.filter_cons_of_neg kept, List.filter_cons_of_neg dropped]
        · rw [List.filter_cons, List.filter_cons, shape]

/-- The first item of a descent is the greatest one up to the pivot. -/
theorem head?_descend (sorted : Sorted key items) (member : item ∈ items)
    (below : key item ≤ pivot)
    (greatest : ∀ other ∈ items, key other ≤ pivot → key other ≤ key item) :
    (descend key pivot items).head? = some item := by
  have inside : item ∈ items.filter fun item => key item ≤ pivot :=
    List.mem_filter.mpr ⟨member, by simpa using below⟩
  have sortedBelow : Sorted key (items.filter fun item => key item ≤ pivot) :=
    sorted.filter _
  rw [descend, List.head?_reverse]
  cases last : (items.filter fun item => key item ≤ pivot).getLast? with
  | none => simp [List.getLast?_eq_none_iff.mp last] at inside
  | some other =>
      obtain ⟨earlier, split⟩ := List.getLast?_eq_some_iff.mp last
      have isOther : other ∈ items.filter fun item => key item ≤ pivot := by
        simp [split]
      obtain ⟨inItems, isBelow⟩ := List.mem_filter.mp isOther
      have atMost := greatest other inItems (by simpa using isBelow)
      rw [split] at inside sortedBelow
      rcases List.mem_append.mp inside with early | isLast
      · have less := (List.pairwise_append.mp sortedBelow).2.2 item early other
          (by simp)
        exact absurd less atMost.not_gt
      · rw [List.mem_singleton.mp isLast]

/-- What a descent starts with is at least every item up to the pivot. -/
theorem le_of_head?_descend (sorted : Sorted key items)
    (found : (descend key pivot items).head? = some other) (member : item ∈ items)
    (below : key item ≤ pivot) : key item ≤ key other := by
  have inside : item ∈ items.filter fun item => key item ≤ pivot :=
    List.mem_filter.mpr ⟨member, by simpa using below⟩
  rw [descend, List.head?_reverse] at found
  rcases List.getLast?_eq_some_iff.mp found with ⟨earlier, split⟩
  have sortedBelow : Sorted key (items.filter fun item => key item ≤ pivot) :=
    sorted.filter _
  rw [split] at inside sortedBelow
  rcases List.mem_append.mp inside with early | isLast
  · exact ((List.pairwise_append.mp sortedBelow).2.2 item early other (by simp)).le
  · rw [List.mem_singleton.mp isLast]

/-- Deleting a key leaves the items with other keys. -/
theorem mem_delete :
    item ∈ delete key pivot items ↔ item ∈ items ∧ key item ≠ pivot := by
  simp [delete]

/-- Deleting a key that is not there changes nothing. -/
theorem delete_of_absent (absent : ∀ other ∈ items, key other ≠ pivot) :
    delete key pivot items = items :=
  List.filter_eq_self.mpr fun other member => decide_eq_true (absent other member)

theorem sorted_delete (sorted : Sorted key items) :
    Sorted key (delete key pivot items) := sorted.filter _

/-- A list whose kept items come first is split by the filter. -/
theorem eq_filter_append {keep : α → Bool}
    (first : items.Pairwise fun item other =>
      keep other = true → keep item = true) :
    items = items.filter keep ++ items.filter fun item => !keep item := by
  induction items with
  | nil => rfl
  | cons head rest induction =>
      obtain ⟨before, firstRest⟩ := List.pairwise_cons.mp first
      cases kept : keep head with
      | true =>
          rw [List.filter_cons_of_pos kept,
            List.filter_cons_of_neg (by simp [kept]), List.cons_append,
            ← induction firstRest]
      | false =>
          have none : rest.filter keep = [] :=
            List.filter_eq_nil_iff.mpr fun other member isKept => by
              simp [before other member isKept] at kept
          have all : rest.filter (fun item => !keep item) = rest :=
            List.filter_eq_self.mpr fun other member => by
              simpa using List.filter_eq_nil_iff.mp none other member
          rw [List.filter_cons_of_neg (by simp [kept]),
            List.filter_cons_of_pos (by simp [kept]), none, all]
          rfl

/-! ## Groups -/

section Groups

variable {γ ρ : Type} [LinearOrder γ] [LinearOrder ρ]
    {group : α → γ} {rank : α → ρ} {label : γ} {front back : List α}

/-- The key of an item that belongs to a group and has a rank in it. -/
def groupKey (group : α → γ) (rank : α → ρ) (item : α) : γ ×ₗ ρ :=
  toLex (group item, rank item)

/-- Keys are compared by group first and by rank within a group. -/
theorem groupKey_lt_iff {first second : α} :
    groupKey group rank first < groupKey group rank second ↔
      group first < group second ∨
        group first = group second ∧ rank first < rank second :=
  Prod.Lex.lt_iff

/-- The items of one group, in order. -/
def ofGroup (group : α → γ) (label : γ) (items : List α) : List α :=
  items.filter fun item => group item = label

@[simp]
theorem mem_ofGroup :
    item ∈ ofGroup group label items ↔ item ∈ items ∧ group item = label := by
  simp [ofGroup]

/-- The items of one group are sorted by rank. -/
theorem Sorted.ofGroup (sorted : Sorted (groupKey group rank) items)
    (label : γ) : Sorted rank (ofGroup group label items) := by
  have pairs := List.Pairwise.filter (fun item => group item = label) sorted
  refine pairs.imp_of_mem ?_
  intro first second isFirst isSecond less
  have firstLabel : group first = label := by simpa using (List.mem_filter.mp isFirst).2
  have secondLabel : group second = label := by simpa using (List.mem_filter.mp isSecond).2
  rcases groupKey_lt_iff.mp less with smaller | ⟨_, ranks⟩
  · exact absurd (firstLabel.trans secondLabel.symm) smaller.ne
  · exact ranks

/-- A sorted list is the earlier groups, one group, and the later groups. -/
theorem Sorted.split_group (sorted : Sorted (groupKey group rank) items)
    (label : γ) :
    items = (items.filter fun item => group item < label) ++
      KeyedList.ofGroup group label items ++
      items.filter fun item => label < group item := by
  induction items with
  | nil => rfl
  | cons head rest induction =>
      obtain ⟨smaller, sortedRest⟩ := List.pairwise_cons.mp sorted
      have groups : ∀ other ∈ rest, group head ≤ group other := by
        intro other member
        rcases groupKey_lt_iff.mp (smaller other member) with less | ⟨same, _⟩
        · exact less.le
        · exact same.le
      have shape := induction sortedRest
      rcases lt_trichotomy (group head) label with less | same | greater
      · simp only [KeyedList.ofGroup, List.filter_cons, less, less.ne,
          less.not_gt, decide_true, decide_false, ↓reduceIte,
          Bool.false_eq_true, List.cons_append]
        exact congrArg (List.cons head) shape
      · have noneBefore : (rest.filter fun item => group item < label) = [] := by
          refine List.filter_eq_nil_iff.mpr fun other member => ?_
          have := groups other member
          simp [← same, this]
        rw [noneBefore] at shape
        simp only [KeyedList.ofGroup, List.filter_cons, same, lt_irrefl,
          decide_true, decide_false, ↓reduceIte, Bool.false_eq_true,
          noneBefore, List.nil_append, List.cons_append]
        exact congrArg (List.cons head) shape
      · have allAfter : ∀ other ∈ rest, label < group other :=
          fun other member => greater.trans_le (groups other member)
        have noneBefore : (rest.filter fun item => group item < label) = [] :=
          List.filter_eq_nil_iff.mpr fun other member => by
            simpa using (allAfter other member).le
        have noneInside : (rest.filter fun item => group item = label) = [] :=
          List.filter_eq_nil_iff.mpr fun other member => by
            simpa using (allAfter other member).ne'
        have keepAll : (rest.filter fun item => label < group item) = rest :=
          List.filter_eq_self.mpr fun other member => by
            simpa using allAfter other member
        simp [KeyedList.ofGroup, greater, greater.ne', greater.not_gt,
          noneBefore, noneInside, keepAll]

/--
Inserting an item between two ranks of its group inserts it at that place and
leaves the other groups alone.
-/
theorem ofGroup_set (item : α) (sorted : Sorted (groupKey group rank) items)
    (split : ofGroup group (group item) items = front ++ back)
    (above : ∀ other ∈ front, rank other < rank item)
    (below : ∀ other ∈ back, rank item < rank other) (label : γ) :
    ofGroup group label (set (groupKey group rank) item items) =
      if label = group item then front ++ item :: back
      else ofGroup group label items := by
  have fresh : ∀ other ∈ items,
      groupKey group rank other ≠ groupKey group rank item := by
    intro other member same
    have pair := toLex_inj.mp same
    have sameGroup : group other = group item := (Prod.mk.inj pair).1
    have sameRank : rank other = rank item := (Prod.mk.inj pair).2
    have inGroup : other ∈ front ++ back :=
      split ▸ mem_ofGroup.mpr ⟨member, sameGroup⟩
    rcases List.mem_append.mp inGroup with isFront | isBack
    · exact (above other isFront).ne sameRank
    · exact (below other isBack).ne' sameRank
  have sortedSet := sorted_set sorted item
  split_ifs with same
  · subst same
    have sortedGroup := sorted.ofGroup (group item)
    rw [split] at sortedGroup
    have target : Sorted rank (front ++ item :: back) := by
      obtain ⟨sortedFront, sortedBack, across⟩ :=
        List.pairwise_append.mp sortedGroup
      refine List.pairwise_append.mpr
        ⟨sortedFront, List.pairwise_cons.mpr ⟨below, sortedBack⟩, ?_⟩
      intro first isFirst second isSecond
      rcases List.mem_cons.mp isSecond with rfl | isBack
      · exact above first isFirst
      · exact across first isFirst second isBack
    refine (sortedSet.ofGroup (group item)).eq_of_mem_iff target ?_
    intro other
    have inGroup : other ∈ front ++ back ↔
        other ∈ items ∧ group other = group item := by
      rw [← split, mem_ofGroup]
    rw [mem_ofGroup, mem_set_of_fresh fresh]
    rw [List.mem_append] at inGroup
    rw [List.mem_append, List.mem_cons]
    constructor
    · rintro ⟨rfl | old, sameGroup⟩
      · exact Or.inr (Or.inl rfl)
      · rcases inGroup.mpr ⟨old, sameGroup⟩ with isFront | isBack
        · exact Or.inl isFront
        · exact Or.inr (Or.inr isBack)
    · rintro (isFront | rfl | isBack)
      · have old := inGroup.mp (Or.inl isFront)
        exact ⟨Or.inr old.1, old.2⟩
      · exact ⟨Or.inl rfl, rfl⟩
      · have old := inGroup.mp (Or.inr isBack)
        exact ⟨Or.inr old.1, old.2⟩
  · refine (sortedSet.ofGroup label).eq_of_mem_iff (sorted.ofGroup label) ?_
    intro other
    rw [mem_ofGroup, mem_ofGroup, mem_set_of_fresh fresh]
    constructor
    · rintro ⟨rfl | old, sameGroup⟩
      · exact absurd sameGroup.symm same
      · exact ⟨old, sameGroup⟩
    · exact fun old => ⟨Or.inr old.1, old.2⟩

/-- From a pivot in a group on: the rest of the group, then later groups. -/
theorem ascend_group (sorted : Sorted (groupKey group rank) items)
    (label : γ) (least : ρ) :
    ascend (groupKey group rank) (toLex (label, least)) items =
      ((ofGroup group label items).filter fun item => least ≤ rank item) ++
        items.filter fun item => label < group item := by
  have inOrder : ∀ item : α,
      toLex (label, least) ≤ groupKey group rank item ↔
        label < group item ∨ label = group item ∧ least ≤ rank item :=
    fun _ => Prod.Lex.le_iff
  conv_lhs => rw [ascend, sorted.split_group label]
  rw [List.filter_append, List.filter_append]
  have noneBefore : ((items.filter fun item => group item < label).filter
      fun item => toLex (label, least) ≤ groupKey group rank item) = [] := by
    refine List.filter_eq_nil_iff.mpr fun item member => ?_
    have less : group item < label := by simpa using (List.mem_filter.mp member).2
    simp [inOrder, less.not_gt, less.ne']
  have allAfter : ((items.filter fun item => label < group item).filter
      fun item => toLex (label, least) ≤ groupKey group rank item) =
        items.filter fun item => label < group item := by
    refine List.filter_eq_self.mpr fun item member => ?_
    have less : label < group item := by simpa using (List.mem_filter.mp member).2
    simp [inOrder, less]
  rw [noneBefore, allAfter, List.nil_append]
  congr 1
  refine List.filter_congr fun item member => ?_
  simp [inOrder, (mem_ofGroup.mp member).2]

/-- Down from a pivot in a group: the start of the group, then earlier groups. -/
theorem descend_group (sorted : Sorted (groupKey group rank) items)
    (label : γ) (most : ρ) :
    descend (groupKey group rank) (toLex (label, most)) items =
      ((ofGroup group label items).filter fun item => rank item ≤ most).reverse ++
        (items.filter fun item => group item < label).reverse := by
  have inOrder : ∀ item : α,
      groupKey group rank item ≤ toLex (label, most) ↔
        group item < label ∨ group item = label ∧ rank item ≤ most :=
    fun _ => Prod.Lex.le_iff
  conv_lhs => rw [descend, sorted.split_group label]
  rw [← List.reverse_append, List.filter_append, List.filter_append]
  have allBefore : ((items.filter fun item => group item < label).filter
      fun item => groupKey group rank item ≤ toLex (label, most)) =
        items.filter fun item => group item < label := by
    refine List.filter_eq_self.mpr fun item member => ?_
    have less : group item < label := by simpa using (List.mem_filter.mp member).2
    simp [inOrder, less]
  have noneAfter : ((items.filter fun item => label < group item).filter
      fun item => groupKey group rank item ≤ toLex (label, most)) = [] := by
    refine List.filter_eq_nil_iff.mpr fun item member => ?_
    have less : label < group item := by simpa using (List.mem_filter.mp member).2
    simp [inOrder, less.not_gt, less.ne']
  rw [allBefore, noneAfter, List.append_nil]
  congr 2
  refine List.filter_congr fun item member => ?_
  simp [inOrder, (mem_ofGroup.mp member).2]

end Groups

end Mintter.Foundation.KeyedList
