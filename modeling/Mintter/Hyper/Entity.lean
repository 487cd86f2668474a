import Mintter.Crdt2.Versions
import Mintter.Hyper.Clock
import Mintter.Hyper.Principal

/-!
# Entities and changes

An entity is built by applying changes: `applyChange` checks the causal order,
applies the patch of the change to the map of the entity and extends the graph
of dependencies.  CIDs are their base58 texts.  Sets of CIDs are lists in the
order in which `SortCIDs` puts them.

Signing and encoding a blob are parameters of `newChange`.
-/

namespace Mintter.Hyper

open Mintter.Foundation
open Mintter.Crdt2

/-- A change of an entity. -/
structure Change where
  deps : List String
  delegation : String
  action : String
  hlcTime : Int
  entity : String
  patch : Object
  signer : Principal
  sig : String

/-- An entity that is loaded: its changes, their graph, and the state that they lead to. -/
structure Entity where
  id : String
  changes : List (String × Change)
  deps : List (List Nat)
  rdeps : List (List Nat)
  applied : String → Option Nat
  heads : List String
  state : Map
  maxClock : Clock
  vectorClock : Principal → Int

/-- An entity without changes. -/
def newEntityWithClock (id : String) (clock : Clock) : Entity where
  id := id
  changes := []
  deps := []
  rdeps := []
  applied := fun _ => none
  heads := []
  state := newMap
  maxClock := clock
  vectorClock := fun _ => 0

/-- An entity without changes, with a new clock. -/
def newEntity (id : String) : Entity := newEntityWithClock id newClock

/-- The last nine characters of the text of a CID. -/
def originFromCID (c : String) : String :=
  String.ofList (c.toList.drop (c.toList.length - 9))

/-! ## The graph of dependencies -/

/-- Where to insert `v`, unless it is met before a greater element. -/
def targetIndex {α : Type} [LinearOrder α] (v : α) : Nat → List α → Option Nat
  | _, [] => some 0
  | i, x :: rest =>
      if x = v then none
      else if v < x then some i
      else targetIndex v (i + 1) rest

/-- Insert a value into a sorted list unless it is there. -/
def addUnique {α : Type} [LinearOrder α] (xs : List α) (v : α) : List α :=
  match targetIndex v 0 xs with
  | none => xs
  | some i => xs.insertIdx i v

namespace Entity

/-- The indexes of the dependencies, which must all have been applied. -/
def findDeps (applied : String → Option Nat) (c : String) :
    List String → Except String (List Nat)
  | [] => .ok []
  | dep :: rest =>
      match applied dep with
      | none => .error s!"missing dependency {dep} of change {c}"
      | some idx => (findDeps applied c rest).map (idx :: ·)

/-- The dependency is no head any more, and its edges are recorded. -/
def link (curIdx : Nat) (e : Entity) (dep : String × Nat) : Entity :=
  { e with
    heads := e.heads.filter (· ≠ dep.1)
    deps := e.deps.modify curIdx (addUnique · dep.2)
    rdeps := e.rdeps.modify dep.2 (addUnique · curIdx) }

/-- Record an applied change as the newest one. -/
def append (e : Entity) (c : String) (ch : Change) (deps : List Nat) : Entity :=
  let curIdx := e.changes.length
  let e := { e with
    changes := e.changes ++ [(c, ch)]
    deps := e.deps ++ [[]]
    rdeps := e.rdeps ++ [[]]
    heads := KeyedList.set (fun head => head) c e.heads
    applied := Function.update e.applied c (some curIdx) }
  (ch.deps.zip deps).foldl (link curIdx) e

/--
Apply a change while the wall clock reads `wall`.  An error comes with the
entity as it was left: the vector clock is written before the later checks.
-/
def applyChange (e : Entity) (c : String) (ch : Change) (wall : Int) :
    Outcome (Entity × Except String Unit) :=
  if ch.entity ≠ e.id then
    pure (e, .error s!"won't apply change from a different entity: want=\"{e.id}\", got=\"{ch.entity}\"")
  else if (e.applied c).isSome then
    pure (e, .error "change is already applied")
  else if ch.signer = [] then
    panicWith emptySlice
  else if ch.hlcTime < e.vectorClock ch.signer then
    pure (e, .error s!"applying change '{c}' violates causal order")
  else
    let e := { e with
      vectorClock := Function.update e.vectorClock ch.signer ch.hlcTime }
    if ch.hlcTime < e.maxClock.maxTime then
      pure (e, .error s!"applying change {c} out of causal order")
    else match findDeps e.applied c ch.deps with
      | .error err => pure (e, .error err)
      | .ok deps =>
          match e.maxClock.track ch.hlcTime wall with
          | .error err => pure (e, .error err)
          | .ok clock => do
              let state ←
                e.state.applyPatch ch.hlcTime (originFromCID c) ch.patch
              let e := { e with maxClock := clock, state := state }
              pure (e.append c ch deps, .ok ())

/-- The next timestamp; a clock that is far ahead panics. -/
def nextTimestamp (e : Entity) (wall : Int) : Outcome (Int × Entity) :=
  match e.maxClock.now wall with
  | .error err => panicWith err
  | .ok (ts, clock) => pure (ts, { e with maxClock := clock })

end Entity

/-! ## Creating changes -/

/-- The key that signs the encoded fields of a change. -/
structure KeyPair where
  principal : Principal
  sign : Change → Except String String

/-- Build and sign a change; `encodeBlob` returns the CID of the blob. -/
def newChange (encodeBlob : Change → Except String String) (eid : String)
    (deps : List String) (ts : Int) (signer : KeyPair) (delegation : String)
    (patch : Object) (action : String) : Except String (String × Change) :=
  if patch = [] ∧ deps.length = 1 then
    .error "new changes must have a patch: nothing to update"
  else
    let ch : Change :=
      ⟨deps, delegation, action, ts, eid, patch, signer.principal, ""⟩
    match signer.sign ch with
    | .error err => .error s!"failed to sign change: {err}"
    | .ok sig =>
        let ch := { ch with sig := sig }
        match encodeBlob ch with
        | .error err => .error err
        | .ok c => .ok (c, ch)

/-- Make a change of the entity and apply it. -/
def Entity.createChange (encodeBlob : Change → Except String String)
    (e : Entity) (ts : Int) (signer : KeyPair) (delegation : String)
    (patch : Object) (action : String) (wall : Int) :
    Outcome (Entity × Except String (String × Change)) :=
  match newChange encodeBlob e.id e.heads ts signer delegation patch action with
  | .error err => pure (e, .error err)
  | .ok (c, ch) => do
      let (e, result) ← e.applyChange c ch wall
      pure (e, result.map fun _ => (c, ch))

/-! ## Applied changes -/

/-- The entities built by applying changes. -/
inductive Loaded (id : String) : Entity → Prop where
  | new : Loaded id (newEntity id)
  | apply {e e' : Entity} (c : String) (ch : Change) (wall : Int)
      (loaded : Loaded id e)
      (applied : e.applyChange c ch wall = .ok (e', .ok ())) : Loaded id e'

namespace Entity

/-- What every loaded entity satisfies. -/
structure Sound (e : Entity) : Prop where
  map_sound : e.state.Sound
  clock_nonneg : 0 ≤ e.maxClock.maxTime
  vector_le : ∀ actor, e.vectorClock actor ≤ e.maxClock.maxTime
  inTime : ∀ p : List String, p.length ≤ 3 → ∀ entry ∈ e.state.versions p,
    0 ≤ entry.time ∧ entry.time ≤ e.maxClock.maxTime
  heads_applied : ∀ c ∈ e.heads, (e.applied c).isSome

section Apply

variable {e e' : Entity} {c : String} {ch : Change} {wall : Int}

theorem newEntity_sound (id : String) : (newEntity id).Sound where
  map_sound := Map.newMap_sound
  clock_nonneg := le_rfl
  vector_le := fun _ => le_rfl
  inTime := fun p _ entry member => by
    simp [newEntity, newEntityWithClock, newMap, Map.versions,
      Map.entries] at member
  heads_applied := by simp [newEntity, newEntityWithClock]

/-- The checks that a change passes when it is applied. -/
structure Admits (e : Entity) (c : String) (ch : Change) : Prop where
  entity_eq : ch.entity = e.id
  fresh : e.applied c = none
  signed : ch.signer ≠ []
  actor_le : e.vectorClock ch.signer ≤ ch.hlcTime
  clock_le : e.maxClock.maxTime ≤ ch.hlcTime
  deps_applied : ∀ dep ∈ ch.deps, (e.applied dep).isSome

theorem findDeps_eq_ok_iff (deps : List String) :
    (∃ found, findDeps e.applied c deps = .ok found) ↔
      ∀ dep ∈ deps, (e.applied dep).isSome := by
  induction deps with
  | nil => simp [findDeps]
  | cons dep rest induction =>
      rw [findDeps, List.forall_mem_cons]
      cases isApplied : e.applied dep with
      | none => simp
      | some idx =>
          rw [← induction]
          cases findDeps e.applied c rest <;> simp [Except.map]

/-- The fields of the entity that linking dependencies leaves alone. -/
theorem foldl_link_frame (curIdx : Nat) (deps : List (String × Nat))
    (e : Entity) :
    (deps.foldl (link curIdx) e).id = e.id ∧
    (deps.foldl (link curIdx) e).changes = e.changes ∧
    (deps.foldl (link curIdx) e).applied = e.applied ∧
    (deps.foldl (link curIdx) e).state = e.state ∧
    (deps.foldl (link curIdx) e).maxClock = e.maxClock ∧
    (deps.foldl (link curIdx) e).vectorClock = e.vectorClock ∧
    ∀ c ∈ (deps.foldl (link curIdx) e).heads, c ∈ e.heads := by
  induction deps generalizing e with
  | nil => simp
  | cons dep rest induction =>
      obtain ⟨id_eq, changes_eq, applied_eq, state_eq, clock_eq, vector_eq,
        heads_sub⟩ := induction (link curIdx e dep)
      refine ⟨id_eq, changes_eq, applied_eq, state_eq, clock_eq, vector_eq, ?_⟩
      exact fun c member => (List.mem_filter.mp (heads_sub c member)).1

/-- What appending a change does to the entity. -/
theorem append_frame (e : Entity) (c : String) (ch : Change)
    (deps : List Nat) :
    (e.append c ch deps).id = e.id ∧
    (e.append c ch deps).changes = e.changes ++ [(c, ch)] ∧
    (e.append c ch deps).applied =
      Function.update e.applied c (some e.changes.length) ∧
    (e.append c ch deps).state = e.state ∧
    (e.append c ch deps).maxClock = e.maxClock ∧
    (e.append c ch deps).vectorClock = e.vectorClock ∧
    ∀ head ∈ (e.append c ch deps).heads, head = c ∨ head ∈ e.heads := by
  obtain ⟨id_eq, changes_eq, applied_eq, state_eq, clock_eq, vector_eq,
    heads_sub⟩ := foldl_link_frame e.changes.length (ch.deps.zip deps)
      { e with
        changes := e.changes ++ [(c, ch)]
        deps := e.deps ++ [[]]
        rdeps := e.rdeps ++ [[]]
        heads := KeyedList.set (fun head => head) c e.heads
        applied := Function.update e.applied c (some e.changes.length) }
  refine ⟨id_eq, changes_eq, applied_eq, state_eq, clock_eq, vector_eq, ?_⟩
  exact fun head member => KeyedList.mem_set_subset (heads_sub head member)

/-- Everything an applied change does. -/
structure Applied (e : Entity) (c : String) (ch : Change) (wall : Int)
    (e' : Entity) : Prop where
  admits : e.Admits c ch
  tracked : e.maxClock.track ch.hlcTime wall = .ok e'.maxClock
  state_eq : e.state.applyPatch ch.hlcTime (originFromCID c) ch.patch =
    .ok e'.state
  id_eq : e'.id = e.id
  changes_eq : e'.changes = e.changes ++ [(c, ch)]
  applied_eq : e'.applied =
    Function.update e.applied c (some e.changes.length)
  vector_eq : e'.vectorClock =
    Function.update e.vectorClock ch.signer ch.hlcTime
  heads_sub : ∀ head ∈ e'.heads, head = c ∨ head ∈ e.heads

theorem applied_of_applyChange_eq_ok
    (success : e.applyChange c ch wall = .ok (e', .ok ())) :
    Applied e c ch wall e' := by
  rw [applyChange] at success
  split_ifs at success with other known unsigned early
  · simp at success
  · simp at success
  · cases success
  · simp at success
  by_cases late : ch.hlcTime < e.maxClock.maxTime
  · simp [late] at success
  simp only [if_neg late] at success
  split at success
  · simp at success
  next deps found =>
  split at success
  · simp at success
  next clock tracked =>
  obtain ⟨state, patched, returned⟩ := bind_eq_ok.mp success
  obtain ⟨isEntity, -⟩ := Prod.mk.inj (Except.ok.inj returned)
  have depsApplied : ∀ dep ∈ ch.deps, (e.applied dep).isSome :=
    (findDeps_eq_ok_iff ch.deps).mp ⟨deps, found⟩
  subst isEntity
  obtain ⟨id_eq, changes_eq, applied_eq, state_eq, clock_eq, vector_eq,
    heads_sub⟩ := append_frame _ c ch deps
  have admits : e.Admits c ch :=
    ⟨not_ne_iff.mp other, by simpa using known, unsigned, not_lt.mp early,
      not_lt.mp late, depsApplied⟩
  refine ⟨admits, ?_, ?_, id_eq, changes_eq, applied_eq, vector_eq, heads_sub⟩
  · rw [tracked, clock_eq]
  · rw [patched, state_eq]

/-- A change that passes the checks is applied, or its patch panics. -/
theorem applyChange_of_admits (admits : e.Admits c ch) {clock : Clock}
    (tracked : e.maxClock.track ch.hlcTime wall = .ok clock) {state : Map}
    (patched : e.state.applyPatch ch.hlcTime (originFromCID c) ch.patch =
      .ok state) :
    ∃ e', e.applyChange c ch wall = .ok (e', .ok ()) := by
  obtain ⟨deps, found⟩ :=
    (findDeps_eq_ok_iff (c := c) ch.deps).mpr admits.deps_applied
  rw [applyChange, if_neg (not_ne_iff.mpr admits.entity_eq),
    if_neg (by simp [admits.fresh]), if_neg admits.signed,
    if_neg admits.actor_le.not_gt]
  simp only [if_neg admits.clock_le.not_gt, found, tracked, patched, ok_bind,
    pure_eq_ok, Except.ok.injEq, Prod.mk.injEq, and_true, exists_eq']

/-- Applying a change keeps an entity sound. -/
theorem Applied.sound (applied : Applied e c ch wall e') (sound : e.Sound) :
    e'.Sound := by
  have clock_eq := Clock.track_maxTime applied.tracked
  have newest : e'.maxClock.maxTime = ch.hlcTime := by
    rw [clock_eq, max_eq_right applied.admits.clock_le]
  have patch := Map.applyPatch_spec sound.map_sound ch.hlcTime
    (originFromCID c) ch.patch
  rw [applied.state_eq] at patch
  cases written : writes ch.patch with
  | error abort => simp [written] at patch
  | ok ws =>
      simp only [written] at patch
      obtain ⟨state, isState, mapSound, versions_eq⟩ := patch
      obtain rfl := Except.ok.inj isState
      refine ⟨mapSound, ?_, fun actor => ?_, ?_, fun head member => ?_⟩
      · rw [newest]
        exact sound.clock_nonneg.trans applied.admits.clock_le
      · rw [applied.vector_eq, newest, Function.update_apply]
        split_ifs
        · exact le_rfl
        · exact (sound.vector_le actor).trans applied.admits.clock_le
      · intro p short entry member
        rw [versions_eq p short] at member
        rw [newest]
        rcases mem_overwrite member with old | isTime
        · obtain ⟨nonneg, early⟩ := sound.inTime p short entry old
          exact ⟨nonneg, early.trans applied.admits.clock_le⟩
        · rw [isTime]
          exact ⟨sound.clock_nonneg.trans applied.admits.clock_le, le_rfl⟩
      · rw [applied.applied_eq, Function.update_apply]
        split_ifs with same
        · rfl
        · rcases applied.heads_sub head member with rfl | old
          · exact absurd rfl same
          · exact sound.heads_applied head old

theorem sound_of_loaded {id : String} (loaded : Loaded id e) :
    e.Sound ∧ e.id = id := by
  induction loaded with
  | new => exact ⟨newEntity_sound id, rfl⟩
  | apply c ch wall _ success induction =>
      have applied := applied_of_applyChange_eq_ok success
      exact ⟨applied.sound induction.1, applied.id_eq.trans induction.2⟩

end Apply

end Entity

end Mintter.Hyper
