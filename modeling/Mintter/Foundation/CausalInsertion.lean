import Mathlib.Tactic
import Mathlib.Data.List.Lex

/-!
# Causal insertion into a replicated list

Every item names the item it was inserted after, or the start of the list, and
carries an identifier greater than the one of that reference.  An item is
inserted after its reference, past the items with greater identifiers.  When
references arrive before the items which name them, the resulting list does
not depend on the order of arrival.

The proof assigns to every item the identifiers from the start of the list down
to the item.  The list is always sorted by these paths, a path before its
extensions and greater identifiers first, so it is determined by its items.
-/

namespace Mintter.Foundation

/-! ## The order of paths -/

section Paths

variable {ι : Type} [LinearOrder ι]

/-- Prefixes come first; at the first difference the greater entry does. -/
def PathBefore (first second : List ι) : Prop :=
  List.Lex (fun left right => right < left) first second

namespace PathBefore

/--
A path is before another one if it is its front, or at the first difference has the greater entry.
-/
theorem iff_split {first second : List ι} :
    PathBefore first second ↔
      (∃ entry rest, second = first ++ entry :: rest) ∨
        ∃ common greater tail smaller rest,
          first = common ++ greater :: tail ∧
            second = common ++ smaller :: rest ∧ smaller < greater := by
  constructor
  · intro before
    induction before with
    | nil => exact Or.inl ⟨_, _, rfl⟩
    | rel less => exact Or.inr ⟨[], _, _, _, _, rfl, rfl, less⟩
    | @cons head first second _ induction =>
        rcases induction with ⟨entry, rest, rfl⟩ |
          ⟨common, greater, tail, smaller, rest, rfl, rfl, less⟩
        · exact Or.inl ⟨entry, rest, rfl⟩
        · exact Or.inr
            ⟨head :: common, greater, tail, smaller, rest, rfl, rfl, less⟩
  · rintro (⟨entry, rest, rfl⟩ |
      ⟨common, greater, tail, smaller, rest, rfl, rfl, less⟩)
    · have empty : List.Lex (fun left right : ι => right < left)
          [] (entry :: rest) := List.Lex.nil
      simpa [PathBefore] using List.Lex.append_left _ empty first
    · have differ : List.Lex (fun left right : ι => right < left)
          (greater :: tail) (smaller :: rest) := List.Lex.rel less
      exact List.Lex.append_left _ differ common

/-- No two paths are before each other. -/
theorem asymm {first second : List ι} (before : PathBefore first second) :
    ¬ PathBefore second first :=
  have : Std.Asymm (fun left right : ι => right < left) :=
    ⟨fun _ _ => lt_asymm⟩
  Std.Asymm.asymm (r := List.Lex _) _ _ before

/-- The order of the paths is transitive. -/
theorem trans {first second third : List ι}
    (before : PathBefore first second) (before' : PathBefore second third) :
    PathBefore first third := by
  induction before generalizing third with
  | nil => cases before' <;> exact List.Lex.nil
  | rel less =>
      cases before' with
      | rel less' => exact List.Lex.rel (less'.trans less)
      | cons _ => exact List.Lex.rel less
  | cons _ induction =>
      cases before' with
      | rel less' => exact List.Lex.rel less'
      | cons tail => exact List.Lex.cons (induction tail)

/-- Of two different paths one is before the other. -/
theorem total {first second : List ι} (differ : first ≠ second) :
    PathBefore first second ∨ PathBefore second first := by
  induction first generalizing second with
  | nil =>
      cases second with
      | nil => exact absurd rfl differ
      | cons _ _ => exact Or.inl List.Lex.nil
  | cons head first induction =>
      cases second with
      | nil => exact Or.inr List.Lex.nil
      | cons head' second =>
          rcases lt_trichotomy head head' with less | rfl | greater
          · exact Or.inr (List.Lex.rel less)
          · have tails : first ≠ second := fun same => differ (by rw [same])
            exact (induction tails).imp List.Lex.cons List.Lex.cons
          · exact Or.inl (List.Lex.rel greater)

/-- A path is before those that go on behind it. -/
theorem append_cons (first : List ι) (entry : ι) (rest : List ι) :
    PathBefore first (first ++ entry :: rest) :=
  iff_split.mpr (Or.inl ⟨entry, rest, rfl⟩)

/-- Between a path and its extension by one entry lie greater extensions. -/
theorem between_extension {path other : List ι} {entry : ι}
    (above : PathBefore path other)
    (below : PathBefore other (path ++ [entry])) :
    ∃ greater ∈ other, entry < greater := by
  induction path generalizing other with
  | nil =>
      cases below with
      | nil => cases above
      | rel less => exact ⟨_, List.mem_cons_self, less⟩
      | cons empty => cases empty
  | cons head path induction =>
      cases above with
      | rel less =>
          cases below with
          | rel less' => exact absurd less less'.not_gt
          | cons _ => exact absurd less (lt_irrefl _)
      | cons aboveTail =>
          cases below with
          | rel less => exact absurd less (lt_irrefl _)
          | cons belowTail =>
              obtain ⟨greater, member, less⟩ := induction aboveTail belowTail
              exact ⟨greater, List.mem_cons_of_mem _ member, less⟩

end PathBefore

end Paths

/-! ## The insertion -/

/-- How items are identified and what they name as their left neighbour. -/
structure CausalInsertion (α ι : Type) where
  id : α → ι
  isHead : α → Bool
  refersTo : α → α → Bool

namespace CausalInsertion

variable {α ι : Type} [LinearOrder ι] (ins : CausalInsertion α ι)

/-- Insert before the first item with a smaller identifier. -/
def skip (new : α) : List α → List α
  | [] => [new]
  | item :: rest =>
      if ins.id item < ins.id new then new :: item :: rest
      else item :: skip new rest

/-- Find the reference and insert after it. -/
def after (new : α) : List α → List α
  | [] => []
  | item :: rest =>
      if ins.refersTo new item then item :: ins.skip new rest
      else item :: after new rest

/-- Insert at the head or behind the item that the new one refers to. -/
def insert (new : α) (items : List α) : List α :=
  if ins.isHead new then ins.skip new items else ins.after new items

/-- Insert the items in their order of arrival. -/
def build (order : List α) : List α :=
  order.foldl (fun items new => ins.insert new items) []

/-- Identifiers are unique and a reference names at most one item. -/
structure Coherent (all : α → Prop) : Prop where
  id_injective : ∀ {item other}, all item → all other →
    ins.id item = ins.id other → item = other
  ref_unique : ∀ {item first second}, all item → all first → all second →
    ins.refersTo item first → ins.refersTo item second → first = second

/-- The identifiers from the start of the list down to the item. -/
inductive HasPath (all : α → Prop) : α → List ι → Prop where
  | head {item : α} (known : all item) (isHead : ins.isHead item) :
      HasPath all item [ins.id item]
  | after {item target : α} {path : List ι} (known : all item)
      (notHead : ¬ ins.isHead item) (refers : ins.refersTo item target)
      (less : ins.id target < ins.id item) (above : HasPath all target path) :
      HasPath all item (path ++ [ins.id item])

variable {ins} {all : α → Prop} {item other new : α} {path path' : List ι}

namespace HasPath

theorem known (has : ins.HasPath all item path) : all item := by
  cases has with
  | head known _ => exact known
  | after known _ _ _ _ => exact known

/-- An item has one path only. -/
theorem unique (coherent : ins.Coherent all)
    (has : ins.HasPath all item path) (has' : ins.HasPath all item path') :
    path = path' := by
  induction has generalizing path' with
  | head _ isHead =>
      cases has' with
      | head _ _ => rfl
      | after _ notHead _ _ _ => exact absurd isHead notHead
  | after known notHead refers _ above induction =>
      cases has' with
      | head _ isHead => exact absurd isHead notHead
      | after _ _ refers' _ above' =>
          obtain rfl :=
            coherent.ref_unique known above.known above'.known refers refers'
          rw [induction above']

/-- The entries of a path are no greater than the identifier of its item. -/
theorem le_id (has : ins.HasPath all item path) :
    ∀ entry ∈ path, entry ≤ ins.id item := by
  induction has with
  | head _ _ => simp
  | after _ _ _ less _ induction =>
      intro entry member
      rcases List.mem_append.mp member with above | last
      · exact (induction entry above).trans less.le
      · exact (List.mem_singleton.mp last).le

/-- A path ends with the identifier of its item. -/
theorem eq_append_id (has : ins.HasPath all item path) :
    ∃ front, path = front ++ [ins.id item] := by
  cases has with
  | head _ _ => exact ⟨[], rfl⟩
  | after _ _ _ _ _ => exact ⟨_, rfl⟩

/-- Every entry of the path of a present item is the last one of another's. -/
theorem exists_of_prefix {present : α → Prop}
    (closed : ∀ item target, present item → ¬ ins.isHead item →
      all target → ins.refersTo item target → present target)
    (has : ins.HasPath all item path) (isPresent : present item)
    {front rest : List ι} {entry : ι} (split : path = front ++ entry :: rest) :
    ∃ other, present other ∧ ins.HasPath all other (front ++ [entry]) := by
  induction has generalizing rest with
  | @head item known isHead =>
      refine ⟨item, isPresent, ?_⟩
      obtain ⟨rfl, rfl, rfl⟩ : front = [] ∧ entry = ins.id item ∧ rest = [] := by
        cases front with
        | nil => simpa [eq_comm] using split
        | cons _ front => simp at split
      exact .head known isHead
  | @after item target path known notHead refers less above induction =>
      rcases List.eq_nil_or_concat rest with rfl | ⟨rest, last, rfl⟩
      · obtain ⟨rfl, same⟩ := List.append_inj' split rfl
        obtain rfl : ins.id item = entry := by simpa using same
        exact ⟨item, isPresent, .after known notHead refers less above⟩
      · have shorter : path = front ++ entry :: rest := by
          have split' : path ++ [ins.id item] =
              (front ++ entry :: rest) ++ [last] := by simpa using split
          exact (List.append_inj' split' rfl).1
        exact induction
          (closed item target isPresent notHead above.known refers) shorter

end HasPath

/-- Items by their paths. -/
def Before (ins : CausalInsertion α ι) (all : α → Prop)
    (first second : α) : Prop :=
  ∃ path path', ins.HasPath all first path ∧ ins.HasPath all second path' ∧
    PathBefore path path'

theorem Before.asymm (coherent : ins.Coherent all)
    (before : ins.Before all item other) : ¬ ins.Before all other item := by
  rintro ⟨_, _, hasOther, hasItem, reversed⟩
  obtain ⟨_, _, hasItem', hasOther', order⟩ := before
  obtain rfl := hasItem.unique coherent hasItem'
  obtain rfl := hasOther.unique coherent hasOther'
  exact order.asymm reversed

theorem Before.trans (coherent : ins.Coherent all) {third : α}
    (before : ins.Before all item other)
    (before' : ins.Before all other third) : ins.Before all item third := by
  obtain ⟨first, _, hasItem, hasOther, order⟩ := before
  obtain ⟨_, last, hasOther', hasThird, order'⟩ := before'
  obtain rfl := hasOther.unique coherent hasOther'
  exact ⟨first, last, hasItem, hasThird, order.trans order'⟩

/--
The items present so far: sorted by path, each with a path, and containing the
references of the items.
-/
structure Arranged (ins : CausalInsertion α ι) (all : α → Prop)
    (items : List α) : Prop where
  sorted : items.Pairwise (ins.Before all)
  hasPath : ∀ item ∈ items, ∃ path, ins.HasPath all item path
  closed : ∀ item ∈ items, ¬ ins.isHead item → ∀ target, all target →
    ins.refersTo item target → target ∈ items

/-- An item that comes later than the new one and is not the first to do so. -/
theorem exists_smaller_between (coherent : ins.Coherent all)
    {items : List α} (arranged : ins.Arranged all items)
    (hasNew : ins.HasPath all new (path ++ [ins.id new]))
    (fresh : ∀ item ∈ items, ins.id item ≠ ins.id new)
    (pathLess : ∀ entry ∈ path, entry < ins.id new)
    (member : item ∈ items) (later : ins.Before all new item) :
    ∃ first ∈ items, ins.id first < ins.id new ∧ ins.Before all new first ∧
      (first = item ∨ ins.Before all first item) := by
  obtain ⟨newPath, itemPath, hasNew', hasItem, order⟩ := later
  obtain rfl := hasNew'.unique coherent hasNew
  have closed : ∀ item target, item ∈ items → ¬ ins.isHead item →
      all target → ins.refersTo item target → target ∈ items :=
    fun item target isIn notHead known refers =>
      arranged.closed item isIn notHead target known refers
  have finish : ∀ {front rest : List ι} {entry : ι},
      itemPath = front ++ entry :: rest → entry < ins.id new →
      PathBefore (path ++ [ins.id new]) (front ++ [entry]) →
      ∃ first ∈ items, ins.id first < ins.id new ∧ ins.Before all new first ∧
        (first = item ∨ ins.Before all first item) := by
    intro front rest entry split less before
    obtain ⟨first, isIn, hasFirst⟩ :=
      hasItem.exists_of_prefix closed member split
    have idFirst : ins.id first = entry := by
      obtain ⟨_, same⟩ := hasFirst.eq_append_id
      simpa using (List.append_inj' same rfl).2.symm
    refine ⟨first, isIn, idFirst ▸ less, ⟨_, _, hasNew, hasFirst, before⟩, ?_⟩
    cases rest with
    | nil =>
        left
        obtain ⟨_, same⟩ := hasItem.eq_append_id
        have idItem : ins.id item = entry := by
          simpa using (List.append_inj' (same.symm.trans split) rfl).2
        exact coherent.id_injective hasFirst.known hasItem.known
          (idFirst.trans idItem.symm)
    | cons next rest =>
        refine Or.inr ⟨_, _, hasFirst, hasItem, ?_⟩
        have longer := PathBefore.append_cons (front ++ [entry]) next rest
        simpa [split] using longer
  rcases PathBefore.iff_split.mp order with ⟨entry, rest, shape⟩ |
    ⟨common, greater, tail, smaller, rest, shape, shape', less⟩
  · -- the new identifier would already occur in a path
    exfalso
    obtain ⟨other, isIn, hasOther⟩ := hasItem.exists_of_prefix closed member
      (show itemPath = path ++ ins.id new :: entry :: rest by
        simpa using shape)
    obtain ⟨_, same⟩ := hasOther.eq_append_id
    refine fresh other isIn ?_
    simpa using (List.append_inj' same rfl).2.symm
  · have before : PathBefore (path ++ [ins.id new]) (common ++ [smaller]) :=
      PathBefore.iff_split.mpr
        (Or.inr ⟨common, greater, tail, smaller, [], shape, rfl, less⟩)
    refine finish shape' ?_ before
    have inPath : greater ∈ path ++ [ins.id new] := by simp [shape]
    rcases List.mem_append.mp inPath with above | last
    · exact less.trans (pathLess greater above)
    · exact less.trans_eq (List.mem_singleton.mp last)

/-- Skipping stops exactly where the new path belongs. -/
theorem skip_spec (coherent : ins.Coherent all) {items : List α}
    (arranged : ins.Arranged all items)
    (hasNew : ins.HasPath all new (path ++ [ins.id new]))
    (fresh : ∀ item ∈ items, ins.id item ≠ ins.id new)
    (pathLess : ∀ entry ∈ path, entry < ins.id new)
    {front rest : List α} (split : items = front ++ rest)
    (frontBefore : ∀ item ∈ front, ins.Before all item new)
    (restAfter : ∀ item ∈ rest, ∀ itemPath, ins.HasPath all item itemPath →
      PathBefore path itemPath) :
    ∃ skipped kept, rest = skipped ++ kept ∧
      ins.skip new rest = skipped ++ new :: kept ∧
      (∀ item ∈ skipped, ins.Before all item new) ∧
      ∀ item ∈ kept, ins.Before all new item := by
  induction rest generalizing front with
  | nil => exact ⟨[], [], rfl, rfl, by simp, by simp⟩
  | cons item rest induction =>
      have isIn : item ∈ items := by simp [split]
      obtain ⟨itemPath, hasItem⟩ := arranged.hasPath item isIn
      have sortedTail : (item :: rest).Pairwise (ins.Before all) := by
        have := arranged.sorted
        rw [split] at this
        exact (List.pairwise_append.mp this).2.1
      have compare : PathBefore (path ++ [ins.id new]) itemPath ∨
          PathBefore itemPath (path ++ [ins.id new]) := by
        refine PathBefore.total fun same => fresh item isIn ?_
        obtain ⟨_, shape⟩ := hasItem.eq_append_id
        simpa using (List.append_inj' (shape.symm.trans same.symm) rfl).2
      by_cases less : ins.id item < ins.id new
      · have newBefore : ins.Before all new item := by
          rcases compare with before | reversed
          · exact ⟨_, _, hasNew, hasItem, before⟩
          · obtain ⟨greater, member, above⟩ := PathBefore.between_extension
              (restAfter item List.mem_cons_self itemPath hasItem) reversed
            exact absurd (above.trans_le (hasItem.le_id greater member))
              less.not_gt
        refine ⟨[], item :: rest, rfl, by simp [skip, less], by simp, ?_⟩
        intro later member
        rcases List.mem_cons.mp member with rfl | inRest
        · exact newBefore
        · exact newBefore.trans coherent
            ((List.pairwise_cons.mp sortedTail).1 later inRest)
      · have itemBefore : ins.Before all item new := by
          rcases compare with before | reversed
          · exfalso
            obtain ⟨first, member, small, firstAfter, place⟩ :=
              exists_smaller_between coherent arranged hasNew fresh pathLess
                isIn ⟨_, _, hasNew, hasItem, before⟩
            rcases place with rfl | firstBefore
            · exact less small
            · rw [split] at member
              rcases List.mem_append.mp member with inFront | inTail
              · exact (frontBefore first inFront).asymm coherent firstAfter
              · rcases List.mem_cons.mp inTail with rfl | inRest
                · exact less small
                · exact ((List.pairwise_cons.mp sortedTail).1 first
                    inRest).asymm coherent firstBefore
          · exact ⟨_, _, hasItem, hasNew, reversed⟩
        obtain ⟨skipped, kept, shape, result, skippedBefore, keptAfter⟩ :=
          induction (show items = (front ++ [item]) ++ rest by simpa using split)
            (by
              intro other member
              rcases List.mem_append.mp member with inFront | last
              · exact frontBefore other inFront
              · exact List.mem_singleton.mp last ▸ itemBefore)
            (fun other member =>
              restAfter other (List.mem_cons_of_mem _ member))
        refine ⟨item :: skipped, kept, by rw [shape, List.cons_append], ?_, ?_,
          keptAfter⟩
        · rw [skip, if_neg less, result, List.cons_append]
        · intro other member
          rcases List.mem_cons.mp member with rfl | inSkipped
          · exact itemBefore
          · exact skippedBefore other inSkipped

/-- The reference is found, and the skipping starts right after it. -/
theorem after_append {front rest : List α} {target : α}
    (notBefore : ∀ item ∈ front, ¬ ins.refersTo new item)
    (refers : ins.refersTo new target) :
    ins.after new (front ++ target :: rest) =
      front ++ target :: ins.skip new rest := by
  induction front with
  | nil => simp [after, refers]
  | cons item front induction =>
      have differs := notBefore item List.mem_cons_self
      rw [List.cons_append, after, if_neg differs, induction
        (fun other member => notBefore other (List.mem_cons_of_mem _ member)),
        List.cons_append]

/-- The newest item is inserted right where the skipping starts. -/
theorem skip_of_newest {items : List α}
    (newest : ∀ item ∈ items, ins.id item < ins.id new) :
    ins.skip new items = new :: items := by
  cases items with
  | nil => rfl
  | cons item items => rw [skip, if_pos (newest item List.mem_cons_self)]

/-- The reference of the new item is the start of the list or present. -/
def Ready (ins : CausalInsertion α ι) (items : List α) (new : α) : Prop :=
  ins.isHead new ∨ ¬ ins.isHead new ∧
    ∃ target ∈ items, ins.refersTo new target ∧ ins.id target < ins.id new

/-- Insertion puts the new item between the items before and after its path. -/
theorem insert_spec (coherent : ins.Coherent all) {items : List α}
    (arranged : ins.Arranged all items) (known : all new)
    (fresh : ∀ item ∈ items, ins.id item ≠ ins.id new)
    (ready : ins.Ready items new) :
    ∃ before after, items = before ++ after ∧
      ins.insert new items = before ++ new :: after ∧
      (∃ path, ins.HasPath all new path) ∧
      (∀ item ∈ before, ins.Before all item new) ∧
      ∀ item ∈ after, ins.Before all new item := by
  rcases ready with isHead | ⟨notHead, target, member, refers, less⟩
  · have hasNew : ins.HasPath all new ([] ++ [ins.id new]) :=
      .head known isHead
    obtain ⟨skipped, kept, shape, result, skippedBefore, keptAfter⟩ :=
      skip_spec coherent arranged hasNew fresh (by simp)
        (show items = [] ++ items from rfl) (by simp) (by
          intro item _ itemPath hasItem
          obtain ⟨front, rfl⟩ := hasItem.eq_append_id
          cases front <;> exact List.Lex.nil)
    exact ⟨skipped, kept, shape, by rw [insert, if_pos isHead, result],
      ⟨_, hasNew⟩, skippedBefore, keptAfter⟩
  · obtain ⟨front, rest, rfl⟩ := List.append_of_mem member
    obtain ⟨path, hasTarget⟩ := arranged.hasPath target member
    have hasNew : ins.HasPath all new (path ++ [ins.id new]) :=
      .after known notHead refers less hasTarget
    have sorted := List.pairwise_append.mp arranged.sorted
    have targetBefore : ins.Before all target new :=
      ⟨_, _, hasTarget, hasNew, PathBefore.append_cons _ _ _⟩
    have notBefore : ∀ item ∈ front, ¬ ins.refersTo new item := by
      intro item inFront refers'
      obtain ⟨_, hasItem⟩ := arranged.hasPath item (by simp [inFront])
      obtain rfl := coherent.ref_unique known hasItem.known hasTarget.known
        refers' refers
      have before := sorted.2.2 item inFront item List.mem_cons_self
      exact before.asymm coherent before
    obtain ⟨skipped, kept, shape, result, skippedBefore, keptAfter⟩ :=
      skip_spec coherent arranged hasNew fresh
        (fun entry inPath => (hasTarget.le_id entry inPath).trans_lt less)
        (show front ++ target :: rest = (front ++ [target]) ++ rest by simp)
        (by
          intro item inFront
          rcases List.mem_append.mp inFront with earlier | last
          · exact (sorted.2.2 item earlier target List.mem_cons_self).trans
              coherent targetBefore
          · exact List.mem_singleton.mp last ▸ targetBefore)
        (by
          intro item inRest itemPath hasItem
          obtain ⟨path', _, hasTarget', hasItem', order⟩ :=
            (List.pairwise_cons.mp sorted.2.1).1 item inRest
          obtain rfl := hasTarget.unique coherent hasTarget'
          obtain rfl := hasItem.unique coherent hasItem'
          exact order)
    refine ⟨front ++ target :: skipped, kept, by rw [shape]; simp, ?_,
      ⟨_, hasNew⟩, ?_, keptAfter⟩
    · rw [insert, if_neg notHead, after_append notBefore refers, result]
      simp
    · intro item inFront
      rcases List.mem_append.mp inFront with earlier | later
      · exact (sorted.2.2 item earlier target List.mem_cons_self).trans
          coherent targetBefore
      · rcases List.mem_cons.mp later with rfl | inSkipped
        · exact targetBefore
        · exact skippedBefore item inSkipped

/-- Inserting adds the new item and loses nothing. -/
theorem insert_perm (coherent : ins.Coherent all) {items : List α}
    (arranged : ins.Arranged all items) (known : all new)
    (fresh : ∀ item ∈ items, ins.id item ≠ ins.id new)
    (ready : ins.Ready items new) :
    (ins.insert new items).Perm (new :: items) := by
  obtain ⟨before, after, rfl, result, -⟩ :=
    insert_spec coherent arranged known fresh ready
  rw [result]
  exact List.perm_middle

/-- Inserting an item that is ready keeps the items in the order of their paths. -/
theorem Arranged.insert (coherent : ins.Coherent all) {items : List α}
    (arranged : ins.Arranged all items) (known : all new)
    (fresh : ∀ item ∈ items, ins.id item ≠ ins.id new)
    (ready : ins.Ready items new) :
    ins.Arranged all (ins.insert new items) := by
  have perm := insert_perm coherent arranged known fresh ready
  obtain ⟨before, after, shape, result, hasPath, isBefore, isAfter⟩ :=
    insert_spec coherent arranged known fresh ready
  constructor
  · have sorted := arranged.sorted
    rw [shape] at sorted
    rw [result]
    obtain ⟨sortedBefore, sortedAfter, across⟩ := List.pairwise_append.mp sorted
    refine List.pairwise_append.mpr
      ⟨sortedBefore, List.pairwise_cons.mpr ⟨isAfter, sortedAfter⟩, ?_⟩
    intro first inBefore second member
    rcases List.mem_cons.mp member with rfl | inAfter
    · exact isBefore first inBefore
    · exact across first inBefore second inAfter
  · intro item member
    rcases List.mem_cons.mp (perm.mem_iff.mp member) with rfl | old
    · exact hasPath
    · exact arranged.hasPath item old
  · intro item member notHead target isKnown refers
    refine perm.mem_iff.mpr (List.mem_cons_of_mem _ ?_)
    rcases List.mem_cons.mp (perm.mem_iff.mp member) with rfl | old
    · rcases ready with isHead | ⟨_, target', present, refers', _⟩
      · exact absurd isHead notHead
      · obtain ⟨_, hasTarget'⟩ := arranged.hasPath target' present
        obtain rfl := coherent.ref_unique known isKnown hasTarget'.known
          refers refers'
        exact present
    · exact arranged.closed item old notHead target isKnown refers

/-- An item comes somewhere after the one that it refers to. -/
theorem Arranged.sublist_of_refersTo (coherent : ins.Coherent all) {items : List α}
    (arranged : ins.Arranged all items) (member : item ∈ items) (notHead : ¬ ins.isHead item)
    (isTarget : other ∈ items) (refers : ins.refersTo item other) :
    [other, item].Sublist items := by
  have before : ins.Before all other item := by
    obtain ⟨path, hasItem⟩ := arranged.hasPath item member
    obtain ⟨_, hasOther⟩ := arranged.hasPath other isTarget
    cases hasItem with
    | head _ isHead => exact absurd isHead notHead
    | after known _ refers' less above =>
        obtain rfl := coherent.ref_unique known hasOther.known above.known refers refers'
        exact ⟨_, _, above, .after known notHead refers less above,
          PathBefore.append_cons _ _ _⟩
  obtain ⟨front, rest, rfl⟩ := List.append_of_mem isTarget
  rcases List.mem_append.mp member with inFront | inRest
  · have reversed := (List.pairwise_append.mp arranged.sorted).2.2 item inFront other
      List.mem_cons_self
    exact absurd reversed (before.asymm coherent)
  · rcases List.mem_cons.mp inRest with rfl | later
    · exact absurd before (before.asymm coherent)
    · apply List.Sublist.trans _ (List.sublist_append_right _ _)
      exact List.Sublist.cons_cons other (List.singleton_sublist.mpr later)

/-! ## Convergence -/

/-- Every item arrives once, after its reference. -/
structure CausalOrder (ins : CausalInsertion α ι) (order : List α) : Prop where
  nodup : order.Nodup
  ready : ∀ seen new rest, order = seen ++ new :: rest → ins.Ready seen new

theorem Ready.of_subset {items items' : List α} (ready : ins.Ready items new)
    (sub : items ⊆ items') : ins.Ready items' new := by
  rcases ready with isHead | ⟨notHead, target, member, rest⟩
  · exact Or.inl isHead
  · exact Or.inr ⟨notHead, target, sub member, rest⟩

/-- The list built so far is arranged and holds the items that arrived. -/
theorem build_arranged (coherent : ins.Coherent all) {order : List α}
    (known : ∀ item ∈ order, all item) (causal : ins.CausalOrder order) :
    ins.Arranged all (ins.build order) ∧ (ins.build order).Perm order := by
  induction order using List.reverseRecOn with
  | nil =>
      exact ⟨⟨List.Pairwise.nil, by simp [build], by simp [build]⟩,
        List.Perm.refl _⟩
  | append_singleton order new induction =>
      have knownNew : all new := known new (by simp)
      obtain ⟨arranged, perm⟩ := induction
        (fun item member => known item (by simp [member]))
        ⟨(List.nodup_append.mp causal.nodup).1, fun seen item rest split =>
          causal.ready seen item (rest ++ [new]) (by simp [split])⟩
      have ready : ins.Ready (ins.build order) new :=
        (causal.ready order new [] rfl).of_subset perm.symm.subset
      have notIn : new ∉ order := by
        have := causal.nodup
        rw [List.nodup_append] at this
        exact fun member => this.2.2 new member new (by simp) rfl
      have fresh : ∀ item ∈ ins.build order, ins.id item ≠ ins.id new := by
        intro item member same
        have inOrder := perm.mem_iff.mp member
        obtain rfl := coherent.id_injective
          (known item (by simp [inOrder])) knownNew same
        exact notIn inOrder
      have unfolded : ins.build (order ++ [new]) =
          ins.insert new (ins.build order) := by
        simp [build, List.foldl_append]
      rw [unfolded]
      refine ⟨arranged.insert coherent knownNew fresh ready, ?_⟩
      refine (insert_perm coherent arranged knownNew fresh ready).trans ?_
      exact (perm.cons new).trans (List.perm_append_singleton new order).symm

/-- Two causal orders of the same items build the same list. -/
theorem build_eq_of_perm (coherent : ins.Coherent all)
    {order order' : List α} (known : ∀ item ∈ order, all item)
    (causal : ins.CausalOrder order) (causal' : ins.CausalOrder order')
    (perm : order.Perm order') : ins.build order = ins.build order' := by
  obtain ⟨arranged, same⟩ := build_arranged coherent known causal
  obtain ⟨arranged', same'⟩ := build_arranged coherent
    (fun item member => known item (perm.mem_iff.mpr member)) causal'
  exact (same.trans (perm.trans same'.symm)).eq_of_pairwise
    (fun _ _ _ _ before reversed => absurd reversed (before.asymm coherent))
    arranged.sorted arranged'.sorted

end CausalInsertion

end Mintter.Foundation
