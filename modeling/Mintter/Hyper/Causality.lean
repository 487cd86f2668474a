import Mintter.Crdt2.Merging
import Mintter.Hyper.HeadDeps

/-!
# Causally later writes

The map of an entity orders the writes of a path by their times, and writes of one time
by their origins.  What a change writes comes after the writes of its ancestors when the
times increase along the dependencies.  `ApplyChange` does not compare the time of a
change with those of its dependencies, only with the greatest time it knows, and a change
of the same time passes.
-/

namespace Mintter.Crdt2.Map

open Mintter.Foundation

/-- Getting the path of the entry returns its value. -/
def Returns (m : Map) (e : Entry) : Prop :=
  (KeyedList.descend Entry.key (pivot e.path Crdt2.maxInt64) m.entries).head? = some e ∧
    (e.valueType = .primitive ∨ e.valueType = .atomicMap)

section Returns

variable {m : Map} {e top : Entry} {path : List String} {value : Value}

/-- The entry of a path that is returned is the greatest one. -/
theorem Exact.le_of_returns (exact : m.Exact) (returned : m.Returns top)
    (member : e ∈ m.entries) (inRange : e.time < Crdt2.maxInt64) (samePath : e.path = top.path) :
    e.key ≤ top.key := by
  apply KeyedList.le_of_head?_descend exact.sorted returned.1 member
  refine le_pivot_iff.mpr (.inr ⟨group_eq_iff.mpr samePath, ?_⟩)
  exact Prod.Lex.le_iff.mpr (.inl inRange)

end Returns

end Mintter.Crdt2.Map

namespace Mintter.Hyper

open Mintter.Foundation
open Mintter.Crdt2
open Relation

namespace Entity

/-- The entity after a call of `ApplyChange` that succeeds. -/
def applyOffer (e : Entity) (offer : Offer) : Option Entity :=
  match e.applyChange offer.c offer.ch offer.wall with
  | .ok (e, .ok ()) => some e
  | _ => none

/--
The change has another time than each of its dependencies, which is not the greatest
possible one, and its writes do not share arrays.
-/
structure TimedApart (e : Entity) (offer : Offer) : Prop where
  differs : ∀ change ∈ e.changes, change.1 ∈ offer.ch.deps →
    change.2.hlcTime ≠ offer.ch.hlcTime
  inRange : offer.ch.hlcTime < Crdt2.maxInt64
  decoded : Decoded offer.ch.patch
  separate : Separate offer.ch.patch

/-- A change writes a value that `get` can return. -/
def WritesValue (ch : Change) (w : Write) : Prop :=
  Writes ch.patch w ∧ (w.valueType = .primitive ∨ w.valueType = .atomicMap)

/-- The entry of a write of a change. -/
def changeEntry (change : String × Change) (w : Write) : Entry :=
  w.entry change.2.hlcTime (originFromCID change.1)

/-- Writes of later changes are read before those of their ancestors. -/
structure LaterWins (e : Entity) : Prop where
  times : ∀ change ∈ e.changes, ∀ dep ∈ e.changes, dep.1 ∈ change.2.deps →
    dep.2.hlcTime < change.2.hlcTime
  wins : ∀ c ∈ e.changes, ∀ d ∈ e.changes, TransGen e.DirectDep d.1 c.1 →
    ∀ w w', WritesValue c.2 w → WritesValue d.2 w' → w.path = w'.path →
      ¬ e.state.Returns (changeEntry d w')

section Causal

variable {e e' : Entity} {c d : String × Change} {offer : Offer}

/-- What a run of such changes keeps. -/
structure Causal (e : Entity) : Prop where
  graph : Graph e
  exact : e.state.Exact
  times : ∀ change ∈ e.changes, ∀ dep ∈ e.changes, dep.1 ∈ change.2.deps →
    dep.2.hlcTime < change.2.hlcTime
  inRange : ∀ change ∈ e.changes, change.2.hlcTime < Crdt2.maxInt64
  written : ∀ change ∈ e.changes, ∀ w, Writes change.2.patch w →
    ∃ entry ∈ e.state.entries, entry.key = (changeEntry change w).key

theorem newEntityWithClock_causal (id : String) (clock : Clock) :
    Causal (newEntityWithClock id clock) where
  graph := newEntityWithClock_graph id clock
  exact := Map.newMap_exact
  times := nofun
  inRange := nofun
  written := nofun

theorem applyOffer_eq_some (accepted : e.applyOffer offer = some e') :
    e.applyChange offer.c offer.ch offer.wall = .ok (e', .ok ()) := by
  rw [applyOffer] at accepted
  split at accepted
  · next success => exact Option.some.inj accepted ▸ success
  · cases accepted

/-- Accepting a change keeps the times in causal order, and what was written. -/
theorem Causal.accept (causal : Causal e) (apart : TimedApart e offer)
    (accepted : e.applyOffer offer = some e') : Causal e' := by
  have success := applyOffer_eq_some accepted
  have applied := applied_of_applyChange_eq_ok success
  rcases causal.exact.applyPatchIn_entries .listed apart.decoded apart.separate with
    ⟨state, patched, exact, entries⟩
  have state_eq : e'.state = state := Except.ok.inj (applied.state_eq.symm.trans patched)
  -- The change is new, so none of the others depends on it.
  have fresh : ∀ change ∈ e.changes, offer.c ∉ change.2.deps := by
    intro change member isDep
    have known := causal.graph.deps_applied change member _ isDep
    rw [applied.admits.fresh] at known
    cases known
  have notOwn : offer.c ∉ offer.ch.deps := by
    intro isDep
    have known := applied.admits.deps_applied _ isDep
    rw [applied.admits.fresh] at known
    cases known
  constructor
  · exact causal.graph.applied success
  · exact state_eq ▸ exact
  · intro change member dep isDep named
    rw [applied.changes_eq, List.mem_append, List.mem_singleton] at member isDep
    rcases member with member | rfl
    · rcases isDep with isDep | rfl
      · exact causal.times change member dep isDep named
      · exact absurd named (fresh change member)
    · rcases isDep with isDep | rfl
      · have atMost := (causal.graph.times_le dep isDep).trans applied.admits.clock_le
        exact lt_of_le_of_ne atMost (apart.differs dep isDep named)
      · exact absurd named notOwn
  · intro change member
    rw [applied.changes_eq, List.mem_append, List.mem_singleton] at member
    rcases member with member | rfl
    · exact causal.inRange change member
    · exact apart.inRange
  · intro change member w writes
    rw [applied.changes_eq, List.mem_append, List.mem_singleton] at member
    rw [state_eq]
    rcases member with member | rfl
    · rcases causal.written change member w writes with ⟨entry, old, same⟩
      by_cases replaced : ∃ w', Writes offer.ch.patch w' ∧
          (w'.entry offer.ch.hlcTime (originFromCID offer.c)).key = entry.key
      · rcases replaced with ⟨w', writes', same'⟩
        exact ⟨_, (entries _).mpr (.inr ⟨w', writes', rfl⟩), same'.trans same⟩
      · push Not at replaced
        exact ⟨entry, (entries entry).mpr (.inl ⟨old, replaced⟩), same⟩
    · exact ⟨_, (entries _).mpr (.inr ⟨w, writes, rfl⟩), rfl⟩

/-- The times increase along all paths of dependencies. -/
theorem Causal.lt_of_below (causal : Causal e) (isD : d ∈ e.changes) {x : String}
    (below : TransGen e.DirectDep d.1 x) :
    ∀ c ∈ e.changes, c.1 = x → d.2.hlcTime < c.2.hlcTime := by
  induction below with
  | single direct =>
      rintro ⟨_, ch⟩ isC rfl
      rcases direct with ⟨ch', member, named⟩
      rw [causal.graph.change_unique member isC] at named
      exact causal.times _ isC d isD named
  | tail _ direct induction =>
      rintro ⟨_, ch⟩ isC rfl
      rcases direct with ⟨ch', member, named⟩
      rw [causal.graph.change_unique member isC] at named
      rcases Option.isSome_iff_exists.mp (causal.graph.deps_applied _ isC _ named) with
        ⟨i, isIndex⟩
      rcases (causal.graph.applied_iff _ i).mp isIndex with ⟨dep, found⟩
      have isDep := List.mem_of_getElem? found
      exact (induction _ isDep rfl).trans (causal.times _ isC _ isDep named)

/-- A write with a greater stamp is read before the others of its path. -/
theorem Causal.not_returns (causal : Causal e) (isC : c ∈ e.changes)
    (less : d.2.hlcTime < c.2.hlcTime) {w w' : Write} (writes : Writes c.2.patch w)
    (samePath : w.path = w'.path) : ¬ e.state.Returns (changeEntry d w') := by
  intro returned
  rcases causal.written c isC w writes with ⟨entry, member, same⟩
  have stamps : entry.stamp = (changeEntry c w).stamp := (Prod.mk.inj (toLex_inj.mp same)).2
  have inRange : entry.time < Crdt2.maxInt64 :=
    (Prod.mk.inj (toLex_inj.mp stamps)).1 ▸ causal.inRange c isC
  have path_eq : entry.path = (changeEntry d w').path :=
    (Map.path_eq_of_key_eq same).trans samePath
  have atMost := causal.exact.le_of_returns returned member inRange path_eq
  rw [same] at atMost
  apply atMost.not_gt
  refine KeyedList.groupKey_lt_iff.mpr (.inr ⟨?_, Prod.Lex.lt_iff.mpr (.inl less)⟩)
  exact congrArg pathKey samePath.symm

/--
When every change that is applied has another time than its dependencies, later writes
win over those of their ancestors.
-/
theorem later_writes_win {id : String} {clock : Clock}
    (run : Reaches applyOffer TimedApart (newEntityWithClock id clock) e) : LaterWins e := by
  have causal : Causal e := run.invariant
    (fun _ _ _ causal apart accepted => causal.accept apart accepted)
    (newEntityWithClock_causal id clock)
  constructor
  · exact causal.times
  · intro c isC d isD below w w' writes _ samePath
    have less := causal.lt_of_below isD below c isC rfl
    exact causal.not_returns isC less writes.1 samePath

end Causal

/-! ## Samples -/

/-- A change that sets the title. -/
def titled (c : String) (deps : List String) (hlcTime : Int) (title : String) : Offer :=
  ⟨c, { sampleUpdate deps hlcTime with patch := [("title", .string title)] }, 100⟩

theorem reached_flat {key : String} {value : String} {front : Pending}
    (reached : Reached [(key, .string value)] front) : front = ([(key, .string value)], []) := by
  rw [Reached, below_iff] at reached
  rcases reached with same | ⟨next, member, -⟩
  · exact same
  · simp [Map.nestedFields, unwrap] at member

theorem timedApart_titled {e : Entity} {c : String} {deps : List String} {hlcTime : Int}
    {title : String} (inRange : hlcTime < Crdt2.maxInt64)
    (differs : ∀ change ∈ e.changes, change.1 ∈ deps → change.2.hlcTime ≠ hlcTime) :
    e.TimedApart (titled c deps hlcTime title) where
  differs := differs
  inRange := inRange
  decoded := fun front reached => by
    rw [reached_flat reached]
    simp
  separate := by
    constructor
    · intro front reached field member
      rw [reached_flat reached] at member
      rw [List.mem_singleton.mp member]
      exact ⟨_, rfl⟩
    · intro front reached _
      rw [reached_flat reached]
      simp

/-- A title and a later one. -/
def retitled : List Offer := [titled "b" [] 5 "old", titled "a" ["b"] 6 "new"]

theorem retitled_performed :
    (performAll applyOffer (newEntityWithClock "hm://d/doc" newClock) retitled).isSome := by
  decide +kernel

theorem later_writes_win_retitled :
    LaterWins ((performAll applyOffer (newEntityWithClock "hm://d/doc" newClock) retitled).get
      retitled_performed) := by
  have permitted : AllPermitted applyOffer TimedApart
      (newEntityWithClock "hm://d/doc" newClock) retitled := by
    refine ⟨timedApart_titled (by decide) nofun, fun next accepted => ?_⟩
    have applied := applied_of_applyChange_eq_ok (applyOffer_eq_some accepted)
    refine ⟨timedApart_titled (by decide) ?_, fun _ _ => trivial⟩
    intro change member _
    rw [applied.changes_eq] at member
    have only : change ∈ [("b", (titled "b" [] 5 "old").ch)] := member
    rw [List.mem_singleton.mp only]
    decide
  exact later_writes_win (reaches_of_performAll permitted (Option.some_get _).symm)

/-- A title and one that depends on it, of the same time. -/
def simultaneous : List Offer := [titled "b" [] 5 "old", titled "a" ["b"] 5 "new"]

theorem simultaneous_performed :
    (performAll applyOffer (newEntity "hm://d/doc") simultaneous).isSome := by
  decide +kernel

/-- An entity with two changes of the same time. -/
def simultaneousEntity : Entity :=
  (performAll applyOffer (newEntity "hm://d/doc") simultaneous).get simultaneous_performed

/-- The title of the dependency is read, because its origin is greater. -/
theorem older_title_is_read :
    Reaches applyOffer (fun _ _ => True) (newEntity "hm://d/doc") simultaneousEntity ∧
      TransGen simultaneousEntity.DirectDep "b" "a" ∧
      simultaneousEntity.state.get ["title"] = some (.string "old") ∧
      ¬ LaterWins simultaneousEntity := by
  have isB : simultaneousEntity.changes[0]? = some ("b", (titled "b" [] 5 "old").ch) := rfl
  have isA : simultaneousEntity.changes[1]? = some ("a", (titled "a" ["b"] 5 "new").ch) := rfl
  have dep : "b" ∈ (titled "a" ["b"] 5 "new").ch.deps := List.mem_singleton_self _
  refine ⟨reaches_get simultaneous simultaneous_performed,
    .single ⟨_, List.mem_of_getElem? isA, dep⟩, by decide +kernel, fun later => ?_⟩
  have less := later.times _ (List.mem_of_getElem? isA) _ (List.mem_of_getElem? isB) dep
  exact absurd less (by decide)

end Entity

end Mintter.Hyper
