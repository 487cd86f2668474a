import Mintter.Foundation.Reaches
import Mintter.Hyper.Rejected

/-!
# The graph of the changes of an entity

An entity keeps the graph of its changes in several places: the index of every change,
the dependencies of every change in both directions, and the heads.  They are updated
one dependency after the other when a change is applied, and always agree.
-/

namespace Mintter.Hyper

open Mintter.Foundation
open Mintter.Crdt2

/-- A call that makes an entity grow. -/
inductive EntityCall where
  | applyChange (offer : Offer)
  | createChange (ts : Int) (signer : KeyPair) (delegation : String) (patch : Object)
      (action : String) (wall : Int)

namespace Entity

/-- The entity after a call that returns, also one that returns an error. -/
def call (encodeBlob : Change → Except String String) (e : Entity) :
    EntityCall → Option Entity
  | .applyChange offer =>
      (e.applyChange offer.c offer.ch offer.wall).toOption.map Prod.fst
  | .createChange ts signer delegation patch action wall =>
      (e.createChange encodeBlob ts signer delegation patch action wall).toOption.map
        Prod.fst

/-- The index in `e.changes` of a dependency of the change at index `i`. -/
def DependsOn (e : Entity) (i j : Nat) : Prop :=
  ∃ change, e.changes[i]? = some change ∧
    ∃ dep ∈ change.2.deps, e.applied dep = some j

/-- The indexes of the dependencies, as they are recorded. -/
def depsOf (e : Entity) (i : Nat) : List Nat := e.deps.getD i []

/-- The indexes of the changes that depend on a change, as they are recorded. -/
def rdepsOf (e : Entity) (i : Nat) : List Nat := e.rdeps.getD i []

/-- The places in which the graph is kept agree. -/
structure Graph (e : Entity) : Prop where
  applied_iff : ∀ c i, e.applied c = some i ↔ ∃ ch, e.changes[i]? = some (c, ch)
  injective : ∀ c c' i, e.applied c = some i → e.applied c' = some i → c = c'
  deps_length : e.deps.length = e.changes.length
  rdeps_length : e.rdeps.length = e.changes.length
  deps_applied : ∀ change ∈ e.changes, ∀ dep ∈ change.2.deps, (e.applied dep).isSome
  deps_iff : ∀ i j, j ∈ e.depsOf i ↔ e.DependsOn i j
  deps_lt : ∀ i j, j ∈ e.depsOf i → j < i
  rdeps_iff : ∀ i j, j ∈ e.rdepsOf i ↔ i ∈ e.depsOf j
  heads_iff : ∀ c, c ∈ e.heads ↔
    (e.applied c).isSome ∧ ∀ change ∈ e.changes, c ∉ change.2.deps
  heads_nodup : e.heads.Nodup
  times : e.changes.Pairwise fun earlier later => earlier.2.hlcTime ≤ later.2.hlcTime
  times_le : ∀ change ∈ e.changes, change.2.hlcTime ≤ e.maxClock.maxTime

section Link

variable {e e' : Entity} {c : String} {ch : Change} {wall : Int}

/-! ## Adding to a slice -/

theorem targetIndex_le {α : Type} [LinearOrder α] {v : α} {i : Nat} {xs : List α} {start : Nat}
    (found : targetIndex v start xs = some i) : i ≤ start + xs.length := by
  induction xs generalizing start with
  | nil =>
      rw [targetIndex, Option.some.injEq] at found
      omega
  | cons x xs induction =>
      rw [targetIndex] at found
      split_ifs at found with same less
      · rw [Option.some.injEq] at found
        rw [List.length_cons]
        omega
      · have := induction found
        rw [List.length_cons]
        omega

theorem mem_of_targetIndex {α : Type} [LinearOrder α] {v : α} {xs : List α} {start : Nat}
    (found : targetIndex v start xs = none) : v ∈ xs := by
  induction xs generalizing start with
  | nil => cases found
  | cons x xs induction =>
      rw [targetIndex] at found
      split_ifs at found with same less
      · exact same ▸ List.mem_cons_self ..
      · exact List.mem_cons_of_mem _ (induction found)

/-- As a set, the slice has one more element. -/
theorem mem_addUnique {α : Type} [LinearOrder α] {xs : List α} {v x : α} :
    x ∈ addUnique xs v ↔ x = v ∨ x ∈ xs := by
  rw [addUnique]
  split
  · next found =>
      have there := mem_of_targetIndex found
      constructor
      · exact .inr
      · rintro (rfl | member)
        · exact there
        · exact member
  · next i found =>
      have := targetIndex_le found
      exact List.mem_insertIdx (by omega)

theorem mem_foldl_addUnique {α : Type} [LinearOrder α] {xs vs : List α} {x : α} :
    x ∈ vs.foldl addUnique xs ↔ x ∈ vs ∨ x ∈ xs := by
  induction vs generalizing xs with
  | nil => simp
  | cons v vs induction =>
      rw [List.foldl_cons, induction, mem_addUnique, List.mem_cons]
      tauto

/-! ## Linking the dependencies -/

theorem heads_foldl_link (curIdx : Nat) (deps : List (String × Nat)) (e : Entity) :
    ∀ head, head ∈ (deps.foldl (link curIdx) e).heads ↔
      head ∈ e.heads ∧ head ∉ deps.map Prod.fst := by
  induction deps generalizing e with
  | nil => simp
  | cons dep deps induction =>
      intro head
      rw [List.foldl_cons, induction, link, List.mem_filter, List.map_cons, List.mem_cons]
      simp only [decide_eq_true_eq]
      tauto

theorem heads_sublist_foldl_link (curIdx : Nat) (deps : List (String × Nat)) (e : Entity) :
    (deps.foldl (link curIdx) e).heads.Sublist e.heads := by
  induction deps generalizing e with
  | nil => exact List.Sublist.refl _
  | cons dep deps induction =>
      exact (induction (link curIdx e dep)).trans List.filter_sublist

theorem getD_modify {rows : List (List Nat)} {i : Nat} (inside : i < rows.length)
    (change : List Nat → List Nat) (j : Nat) :
    (rows.modify i change).getD j [] =
      if j = i then change (rows.getD i []) else rows.getD j [] := by
  rw [List.getD_eq_getElem?_getD, List.getD_eq_getElem?_getD, List.getD_eq_getElem?_getD,
    List.getElem?_modify]
  by_cases same : j = i
  · simp [same, inside]
  · simp [same, Ne.symm same]

theorem length_foldl_link (curIdx : Nat) (deps : List (String × Nat)) (e : Entity) :
    (deps.foldl (link curIdx) e).deps.length = e.deps.length ∧
      (deps.foldl (link curIdx) e).rdeps.length = e.rdeps.length := by
  induction deps generalizing e with
  | nil => exact ⟨rfl, rfl⟩
  | cons dep deps induction =>
      rcases induction (link curIdx e dep) with ⟨deps_eq, rdeps_eq⟩
      rw [link, List.length_modify] at deps_eq rdeps_eq
      exact ⟨deps_eq, rdeps_eq⟩

theorem mem_depsOf_foldl_link {curIdx : Nat} (deps : List (String × Nat)) (e : Entity)
    (inside : curIdx < e.deps.length) (i x : Nat) :
    x ∈ (deps.foldl (link curIdx) e).depsOf i ↔
      x ∈ e.depsOf i ∨ i = curIdx ∧ x ∈ deps.map Prod.snd := by
  induction deps generalizing e with
  | nil => simp
  | cons dep deps induction =>
      rw [List.foldl_cons, induction _ (by rwa [link, List.length_modify]), depsOf, link,
        getD_modify inside, List.map_cons, List.mem_cons, depsOf]
      split_ifs with same
      · rw [mem_addUnique, same]
        tauto
      · simp [same]

theorem mem_rdepsOf_foldl_link (curIdx : Nat) (deps : List (String × Nat)) (e : Entity)
    (inside : ∀ dep ∈ deps, dep.2 < e.rdeps.length) (i x : Nat) :
    x ∈ (deps.foldl (link curIdx) e).rdepsOf i ↔
      x ∈ e.rdepsOf i ∨ x = curIdx ∧ i ∈ deps.map Prod.snd := by
  induction deps generalizing e with
  | nil => simp
  | cons dep deps induction =>
      rw [List.forall_mem_cons] at inside
      rw [List.foldl_cons, induction _ (by rw [link, List.length_modify]; exact inside.2),
        rdepsOf, link, getD_modify inside.1, List.map_cons, List.mem_cons, rdepsOf]
      split_ifs with same
      · rw [mem_addUnique, same]
        tauto
      · simp [same]

/-! ## Applying a change -/

theorem forall₂_of_findDeps {applied : String → Option Nat} {deps : List String}
    {found : List Nat} (isFound : findDeps applied c deps = .ok found) :
    List.Forall₂ (fun dep i => applied dep = some i) deps found := by
  induction deps generalizing found with
  | nil =>
      cases isFound
      exact .nil
  | cons dep deps induction =>
      rw [findDeps] at isFound
      split at isFound
      · cases isFound
      · next i isApplied =>
          cases rest : findDeps applied c deps with
          | error err =>
              rw [rest] at isFound
              cases isFound
          | ok indexes =>
              rw [rest] at isFound
              cases isFound
              exact .cons isApplied (induction rest)

theorem mem_of_findDeps {applied : String → Option Nat} {deps : List String}
    {found : List Nat} (isFound : findDeps applied c deps = .ok found) (i : Nat) :
    i ∈ found ↔ ∃ dep ∈ deps, applied dep = some i := by
  have related := forall₂_of_findDeps isFound
  clear isFound
  induction related with
  | nil => simp
  | cons isApplied _ induction =>
      rw [List.mem_cons, List.exists_mem_cons_iff, isApplied, Option.some.injEq, eq_comm]
      exact or_congr_right induction

/-- What a successful call leaves, with the indexes of the dependencies. -/
theorem exists_append_of_applied (success : e.applyChange c ch wall = .ok (e', .ok ())) :
    ∃ found clock state, findDeps e.applied c ch.deps = .ok found ∧
      e' = { e.noteTime ch with maxClock := clock, state := state }.append c ch found := by
  have admits := (applied_of_applyChange_eq_ok success).admits
  rw [applyChange_of_signed admits.entity_eq admits.fresh admits.signed,
    if_neg admits.actor_le.not_gt, if_neg admits.clock_le.not_gt, applyInOrder] at success
  split at success
  · cases success
  · next found isFound =>
      split at success
      · cases success
      · next clock _ =>
          rcases bind_eq_ok.mp success with ⟨state, -, returned⟩
          cases returned
          exact ⟨found, clock, state, isFound, rfl⟩

/-- How the graph grows when a change is applied. -/
structure Extends (e : Entity) (c : String) (ch : Change) (found : List Nat)
    (e' : Entity) : Prop where
  mem_found : ∀ i, i ∈ found ↔ ∃ dep ∈ ch.deps, e.applied dep = some i
  mem_depsOf : ∀ i j, j ∈ e'.depsOf i ↔
    j ∈ e.depsOf i ∨ i = e.changes.length ∧ j ∈ found
  mem_rdepsOf : ∀ i j, j ∈ e'.rdepsOf i ↔
    j ∈ e.rdepsOf i ∨ j = e.changes.length ∧ i ∈ found
  deps_length : e'.deps.length = e.deps.length + 1
  rdeps_length : e'.rdeps.length = e.rdeps.length + 1
  mem_heads : ∀ head, head ∈ e'.heads ↔ (head = c ∨ head ∈ e.heads) ∧ head ∉ ch.deps
  heads_nodup : e.heads.Nodup → e'.heads.Nodup

theorem getD_append_nil (rows : List (List Nat)) (i : Nat) :
    (rows ++ [[]]).getD i [] = rows.getD i [] := by
  rw [List.getD_eq_getElem?_getD, List.getD_eq_getElem?_getD, List.getElem?_append]
  split_ifs with inside
  · exact rfl
  · rw [List.getElem?_eq_none (not_lt.mp inside)]
    cases i - rows.length <;> exact rfl

theorem extends_append (e : Entity) (c : String) (ch : Change) {found : List Nat}
    (isFound : findDeps e.applied c ch.deps = .ok found)
    (deps_length : e.deps.length = e.changes.length)
    (inside : ∀ i ∈ found, i < e.rdeps.length) (fresh : c ∉ e.heads) :
    Extends e c ch found (e.append c ch found) := by
  have related := forall₂_of_findDeps isFound
  have fst_eq : (ch.deps.zip found).map Prod.fst = ch.deps :=
    List.map_fst_zip related.length_eq.le
  have snd_eq : (ch.deps.zip found).map Prod.snd = found :=
    List.map_snd_zip related.length_eq.ge
  let base : Entity :=
    { e with
      changes := e.changes ++ [(c, ch)]
      deps := e.deps ++ [[]]
      rdeps := e.rdeps ++ [[]]
      heads := KeyedList.set (fun head => head) c e.heads
      applied := Function.update e.applied c (some e.changes.length) }
  have isAppend : e.append c ch found =
      (ch.deps.zip found).foldl (link e.changes.length) base := rfl
  have lengths := length_foldl_link e.changes.length (ch.deps.zip found) base
  have differs : ∀ head ∈ e.heads, head ≠ c := fun head member same => fresh (same ▸ member)
  rw [isAppend]
  constructor
  · exact mem_of_findDeps isFound
  · intro i j
    rw [mem_depsOf_foldl_link _ _ (by simp [base, deps_length]), snd_eq]
    exact or_congr_left (by rw [depsOf, getD_append_nil, depsOf])
  · intro i j
    rw [mem_rdepsOf_foldl_link, snd_eq]
    · exact or_congr_left (by rw [rdepsOf, getD_append_nil, rdepsOf])
    · intro dep member
      have isIndex : dep.2 ∈ found := snd_eq ▸ List.mem_map_of_mem member
      have := inside dep.2 isIndex
      simp only [base, List.length_append, List.length_singleton]
      omega
  · rw [lengths.1]
    simp [base]
  · rw [lengths.2]
    simp [base]
  · intro head
    rw [heads_foldl_link, fst_eq]
    exact and_congr_left fun _ => KeyedList.mem_set_of_fresh differs
  · intro nodup
    apply (heads_sublist_foldl_link ..).nodup
    rw [(KeyedList.set_perm_cons differs).nodup_iff]
    exact List.nodup_cons.mpr ⟨fresh, nodup⟩

theorem getElem?_concat_iff {α : Type} {xs : List α} {x y : α} {i : Nat} :
    (xs ++ [x])[i]? = some y ↔ xs[i]? = some y ∨ i = xs.length ∧ x = y := by
  rcases lt_trichotomy i xs.length with less | rfl | greater
  · rw [List.getElem?_append_left less]
    exact (or_iff_left fun ⟨same, _⟩ => less.ne same).symm
  · simp
  · rw [List.getElem?_eq_none (by simpa using greater), List.getElem?_eq_none greater.le]
    exact iff_of_false nofun (by rintro (⟨⟨⟩⟩ | ⟨same, -⟩); exact greater.ne' same)

/-- An applied change is one of the changes, by its index. -/
theorem Graph.lt_length (graph : Graph e) {dep : String} {i : Nat}
    (isApplied : e.applied dep = some i) : i < e.changes.length := by
  rcases (graph.applied_iff dep i).mp isApplied with ⟨ch, found⟩
  exact (List.getElem?_eq_some_iff.mp found).1

theorem Graph.extended (graph : Graph e)
    (success : e.applyChange c ch wall = .ok (e', .ok ())) :
    ∃ found, Extends e c ch found e' := by
  have fresh := (applied_of_applyChange_eq_ok success).admits.fresh
  have notHead : c ∉ e.heads := by
    intro head
    have isApplied := ((graph.heads_iff c).mp head).1
    rw [fresh] at isApplied
    cases isApplied
  rcases exists_append_of_applied success with ⟨found, clock, state, isFound, rfl⟩
  have grown := extends_append { e.noteTime ch with maxClock := clock, state := state } c ch
    isFound graph.deps_length
    (by
      intro i member
      rcases (mem_of_findDeps isFound i).mp member with ⟨dep, -, isApplied⟩
      exact (graph.lt_length isApplied).trans_eq graph.rdeps_length.symm)
    notHead
  exact ⟨found, grown.mem_found, grown.mem_depsOf, grown.mem_rdepsOf, grown.deps_length,
    grown.rdeps_length, grown.mem_heads, grown.heads_nodup⟩

/-- What was applied keeps its index. -/
theorem Applied.applied_of_isSome (applied : Applied e c ch wall e') {dep : String}
    (known : (e.applied dep).isSome) : e'.applied dep = e.applied dep := by
  rw [applied.applied_eq, Function.update_apply]
  split_ifs with same
  · rw [same, applied.admits.fresh] at known
    cases known
  · exact rfl

theorem Graph.applied_iff_of_applied (graph : Graph e) (applied : Applied e c ch wall e')
    (x : String) (i : Nat) :
    e'.applied x = some i ↔ ∃ ch', e'.changes[i]? = some (x, ch') := by
  simp only [applied.applied_eq, Function.update_apply, applied.changes_eq,
    getElem?_concat_iff, exists_or, Prod.mk.injEq]
  split_ifs with same
  · have unknown : ¬ ∃ ch', e.changes[i]? = some (x, ch') := by
      rw [← graph.applied_iff, same, applied.admits.fresh]
      nofun
    rw [or_iff_right unknown, Option.some.injEq]
    constructor
    · exact fun isLast => ⟨ch, isLast.symm, same.symm, rfl⟩
    · rintro ⟨_, isLast, -⟩
      exact isLast.symm
  · rw [graph.applied_iff, or_iff_left]
    rintro ⟨_, -, same', -⟩
    exact same same'.symm

theorem Graph.dependsOn_of_applied (graph : Graph e) (applied : Applied e c ch wall e')
    {found : List Nat} (extended : Extends e c ch found e') (i j : Nat) :
    e'.DependsOn i j ↔ e.DependsOn i j ∨ i = e.changes.length ∧ j ∈ found := by
  simp only [DependsOn, applied.changes_eq, getElem?_concat_iff, or_and_right, exists_or,
    extended.mem_found]
  apply or_congr
  · apply exists_congr
    intro change
    apply and_congr_right
    intro isChange
    apply exists_congr
    intro dep
    apply and_congr_right
    intro member
    rw [applied.applied_of_isSome
      (graph.deps_applied change (List.mem_of_getElem? isChange) dep member)]
  · constructor
    · rintro ⟨_, ⟨isLast, rfl⟩, dep, member, isApplied⟩
      rw [applied.applied_of_isSome (applied.admits.deps_applied dep member)] at isApplied
      exact ⟨isLast, dep, member, isApplied⟩
    · rintro ⟨isLast, dep, member, isApplied⟩
      refine ⟨(c, ch), ⟨isLast, rfl⟩, dep, member, ?_⟩
      rw [applied.applied_of_isSome (applied.admits.deps_applied dep member), isApplied]

theorem Graph.heads_of_applied (graph : Graph e) (applied : Applied e c ch wall e')
    {found : List Nat} (extended : Extends e c ch found e') (x : String) :
    x ∈ e'.heads ↔
      (e'.applied x).isSome ∧ ∀ change ∈ e'.changes, x ∉ change.2.deps := by
  have unused : ∀ change ∈ e.changes, c ∉ change.2.deps := by
    intro change member isDep
    have known := graph.deps_applied change member c isDep
    rw [applied.admits.fresh] at known
    cases known
  rw [extended.mem_heads, graph.heads_iff, applied.changes_eq, applied.applied_eq,
    Function.update_apply]
  simp only [List.forall_mem_append, List.forall_mem_singleton]
  split_ifs with same
  · rw [same]
    simp only [true_or, true_and, Option.isSome_some]
    exact (and_iff_right unused).symm
  · simp [same, and_assoc]

/-- Applying a change keeps the places in agreement. -/
theorem Graph.applied (graph : Graph e)
    (success : e.applyChange c ch wall = .ok (e', .ok ())) : Graph e' := by
  have applied := applied_of_applyChange_eq_ok success
  rcases graph.extended success with ⟨found, extended⟩
  have foundInside : ∀ i ∈ found, i < e.changes.length := by
    intro i member
    rcases (extended.mem_found i).mp member with ⟨dep, -, isApplied⟩
    exact graph.lt_length isApplied
  have newest : e'.maxClock.maxTime = ch.hlcTime := by
    rw [Clock.track_maxTime applied.tracked, max_eq_right applied.admits.clock_le]
  have applied_iff := graph.applied_iff_of_applied applied
  constructor
  · exact applied_iff
  · intro x x' i isApplied isApplied'
    rcases (applied_iff x i).mp isApplied with ⟨ch₁, found₁⟩
    rcases (applied_iff x' i).mp isApplied' with ⟨ch₂, found₂⟩
    rw [found₁] at found₂
    cases found₂
    exact rfl
  · rw [extended.deps_length, graph.deps_length, applied.changes_eq]
    simp
  · rw [extended.rdeps_length, graph.rdeps_length, applied.changes_eq]
    simp
  · intro change member dep isDep
    have known : (e.applied dep).isSome := by
      rw [applied.changes_eq, List.mem_append, List.mem_singleton] at member
      rcases member with old | rfl
      · exact graph.deps_applied change old dep isDep
      · exact applied.admits.deps_applied dep isDep
    rw [applied.applied_of_isSome known]
    exact known
  · intro i j
    rw [extended.mem_depsOf, graph.deps_iff, graph.dependsOn_of_applied applied extended]
  · intro i j member
    rcases (extended.mem_depsOf i j).mp member with old | ⟨rfl, isFound⟩
    · exact graph.deps_lt i j old
    · exact foundInside j isFound
  · intro i j
    rw [extended.mem_rdepsOf, extended.mem_depsOf, graph.rdeps_iff]
  · exact graph.heads_of_applied applied extended
  · exact extended.heads_nodup graph.heads_nodup
  · rw [applied.changes_eq, List.pairwise_append]
    refine ⟨graph.times, List.pairwise_singleton .., fun change member last isLast => ?_⟩
    rw [List.mem_singleton.mp isLast]
    exact (graph.times_le change member).trans applied.admits.clock_le
  · intro change member
    rw [newest]
    rw [applied.changes_eq, List.mem_append, List.mem_singleton] at member
    rcases member with old | rfl
    · exact (graph.times_le change old).trans applied.admits.clock_le
    · exact le_rfl

theorem newEntityWithClock_graph (id : String) (clock : Clock) :
    Graph (newEntityWithClock id clock) := by
  constructor <;> simp [newEntityWithClock, depsOf, rdepsOf, DependsOn]

theorem newEntity_graph (id : String) : Graph (newEntity id) :=
  newEntityWithClock_graph id newClock

theorem Graph.withVector (graph : Graph e) (vector : Principal → Int) :
    Graph (e.withVector vector) :=
  ⟨graph.applied_iff, graph.injective, graph.deps_length, graph.rdeps_length,
    graph.deps_applied, graph.deps_iff, graph.deps_lt, graph.rdeps_iff, graph.heads_iff,
    graph.heads_nodup, graph.times, graph.times_le⟩

theorem toOption_eq_some_iff {α : Type} {outcome : Outcome α} {result : α} :
    outcome.toOption = some result ↔ outcome = .ok result := by
  cases outcome <;> simp [Except.toOption]

/-- A call changes at most a vector clock, or it applies a change. -/
theorem call_cases {encodeBlob : Change → Except String String} {input : EntityCall}
    (called : e.call encodeBlob input = some e') :
    (∃ vector, e' = e.withVector vector) ∨
      ∃ c ch wall, e.applyChange c ch wall = .ok (e', .ok ()) := by
  have applying : ∀ c ch wall result, e.applyChange c ch wall = .ok (e', result) →
      (∃ vector, e' = e.withVector vector) ∨
        ∃ c ch wall, e.applyChange c ch wall = .ok (e', .ok ()) := by
    intro c ch wall result returned
    cases result with
    | ok => exact .inr ⟨c, ch, wall, returned⟩
    | error err =>
        rcases rejected_cases returned with ⟨rfl, -⟩ | ⟨-, -, -, -, rfl⟩
        · exact .inl ⟨e'.vectorClock, rfl⟩
        · exact .inl ⟨_, rfl⟩
  cases input with
  | applyChange offer =>
      rcases Option.map_eq_some_iff.mp called with ⟨⟨_, result⟩, returned, rfl⟩
      exact applying _ _ _ result (toOption_eq_some_iff.mp returned)
  | createChange ts signer delegation patch action wall =>
      rcases Option.map_eq_some_iff.mp called with ⟨⟨_, result⟩, returned, rfl⟩
      have created := toOption_eq_some_iff.mp returned
      rw [createChange] at created
      split at created
      · cases created
        exact .inl ⟨e.vectorClock, rfl⟩
      · rcases bind_eq_ok.mp created with ⟨⟨next, applied⟩, isApplied, last⟩
        cases last
        exact applying _ _ _ applied isApplied

/-- One change is listed under a CID. -/
theorem Graph.change_unique (graph : Graph e) {ch' : Change} (member : (c, ch) ∈ e.changes)
    (member' : (c, ch') ∈ e.changes) : ch = ch' := by
  rcases List.getElem?_of_mem member with ⟨i, found⟩
  rcases List.getElem?_of_mem member' with ⟨i', found'⟩
  have isIndex := (graph.applied_iff c i).mpr ⟨ch, found⟩
  rw [(graph.applied_iff c i').mpr ⟨ch', found'⟩, Option.some.injEq] at isIndex
  rw [isIndex, found] at found'
  cases found'
  exact rfl

/-- The places agree in every entity that a run reaches. -/
theorem graph_of_reaches {encodeBlob : Change → Except String String} {id : String}
    (run : Reaches (call encodeBlob) (fun _ _ => True) (newEntity id) e) : Graph e := by
  refine run.invariant (fun before input after graph _ called => ?_) (newEntity_graph id)
  rcases call_cases called with ⟨vector, rfl⟩ | ⟨c, ch, wall, success⟩
  · exact graph.withVector vector
  · exact graph.applied success

/--
In every entity that grows by applying and creating changes the indexes, the graph in
both directions, the heads and the order of the times agree.
-/
theorem entity_graph {encodeBlob : Change → Except String String} {id : String}
    (run : Reaches (call encodeBlob) (fun _ _ => True) (newEntity id) e) :
    (∀ c i, e.applied c = some i ↔ ∃ ch, e.changes[i]? = some (c, ch)) ∧
      (∀ c c' i, e.applied c = some i → e.applied c' = some i → c = c') ∧
      (∀ i c ch, e.changes[i]? = some (c, ch) →
        {j | j ∈ e.depsOf i} = {j | ∃ dep ∈ ch.deps, e.applied dep = some j} ∧
          (∀ dep ∈ ch.deps, (e.applied dep).isSome) ∧ ∀ j ∈ e.depsOf i, j < i) ∧
      (∀ i j, j ∈ e.rdepsOf i ↔ i ∈ e.depsOf j) ∧
      (∀ c, c ∈ e.heads ↔
        (e.applied c).isSome ∧ ∀ change ∈ e.changes, c ∉ change.2.deps) ∧
      e.changes.Pairwise fun earlier later => earlier.2.hlcTime ≤ later.2.hlcTime := by
  have graph := graph_of_reaches run
  refine ⟨graph.applied_iff, graph.injective, fun i c ch isChange => ?_, graph.rdeps_iff,
    graph.heads_iff, graph.times⟩
  refine ⟨?_, graph.deps_applied _ (List.mem_of_getElem? isChange), graph.deps_lt i⟩
  ext j
  change j ∈ e.depsOf i ↔ _
  rw [graph.deps_iff, DependsOn, isChange]
  constructor
  · rintro ⟨change, same, isDep⟩
    cases same
    exact isDep
  · exact fun isDep => ⟨(c, ch), rfl, isDep⟩

end Link

/-! ## A sample -/

/-- A change of the sample document. -/
def sampleUpdate (deps : List String) (hlcTime : Int) : Change :=
  ⟨deps, "bafydelegation", "Update", hlcTime, "hm://d/doc", [], [1], ""⟩

/-- A change that is offered with these dependencies. -/
def offered (c : String) (deps : List String) (hlcTime : Int) : EntityCall :=
  .applyChange ⟨c, sampleUpdate deps hlcTime, hlcTime⟩

/-- Two changes without dependencies, and a third that names the first one twice. -/
def mergedRoots : List EntityCall :=
  [offered "a" [] 1, offered "b" [] 2, offered "c" ["a", "b", "a"] 3]

theorem mergedRoots_performed :
    (performAll (call fun _ => .error "") (newEntity "hm://d/doc") mergedRoots).isSome := by
  decide +kernel

/-- An entity with two roots and a change that merges them. -/
def mergedEntity : Entity :=
  (performAll (call fun _ => .error "") (newEntity "hm://d/doc") mergedRoots).get
    mergedRoots_performed

theorem entity_graph_merged : mergedEntity.heads = ["c"] ∧
    ∀ c, c ∈ mergedEntity.heads ↔ (mergedEntity.applied c).isSome ∧
      ∀ change ∈ mergedEntity.changes, c ∉ change.2.deps := by
  constructor
  · decide +kernel
  · exact (entity_graph (reaches_get mergedRoots mergedRoots_performed)).2.2.2.2.1

/-- The first change is recorded twice as a dependency of the third one. -/
example : mergedEntity.depsOf 2 = [0, 1, 0] := by
  decide +kernel

end Entity

end Mintter.Hyper
