import Mintter.Crdt2.Shallow
import Mintter.Hyper.GroupSites
import Mintter.Hyper.Requests

/-!
# Replicas of an entity

Two nodes apply the changes of an entity in the order of their times, and changes of one time
in any order.  When the writes of different changes have different stamps, an entity is
determined by which changes were applied: the map reads the same at short paths, the heads, the
clocks and the dependencies are the same, and so are the changes that can be applied next
(`replicas_agree`).  So two stores that select the same changes load entities that agree.
-/

namespace Mintter.Hyper

open Mintter.Foundation
open Mintter.Crdt2

/-- The time and the origin under which a change writes. -/
def changeStamp (change : String × Change) : Int ×ₗ String :=
  toLex (change.2.hlcTime, originFromCID change.1)

/-- Different changes write under different stamps, and no object of theirs repeats a key. -/
structure WritesApart (changes : List (String × Change)) : Prop where
  stamps : (changes.map changeStamp).Nodup
  decoded : ∀ change ∈ changes, Decoded change.2.patch

/-- The entities cannot be told apart by what is read from them and applied to them. -/
structure Agree (e e' : Entity) : Prop where
  state : Map.ReadsAlike e.state e'.state
  heads : e.heads = e'.heads
  maxClock : e.maxClock = e'.maxClock
  vectorClock : e.vectorClock = e'.vectorClock
  deps : ∀ order order', ∃ deps deps',
    Converges (fun fuel => e.headDeps fuel order) (.ok deps) ∧
      Converges (fun fuel => e'.headDeps fuel order') (.ok deps') ∧ deps.Perm deps'
  offers : ∀ offer, (e.applyOffer offer).isSome = (e'.applyOffer offer).isSome

section Written

variable {changes changes' : List (String × Change)} {entry : Entry}

theorem WritesApart.perm (apart : WritesApart changes) (perm : changes.Perm changes') :
    WritesApart changes' where
  stamps := (perm.map changeStamp).nodup_iff.mp apart.stamps
  decoded := fun change member => apart.decoded change (perm.mem_iff.mpr member)

theorem stamp_of_writesEntry {change : String × Change}
    (writes : (patchCall change).WritesEntry entry) : entry.stamp = changeStamp change := by
  rcases writes with ⟨w, -, rfl⟩
  exact rfl

/-- With different stamps nothing is overwritten. -/
theorem WritesApart.stands_iff (apart : WritesApart changes) :
    Stands (changes.map patchCall) entry ↔
      ∃ change ∈ changes, (patchCall change).WritesEntry entry := by
  constructor
  · intro stands
    rcases stands.written with ⟨call, member, writes⟩
    rcases List.mem_map.mp member with ⟨change, isChange, rfl⟩
    exact ⟨change, isChange, writes⟩
  · rintro ⟨change, member, writes⟩
    rcases List.append_of_mem member with ⟨before, after, split⟩
    have stamps := apart.stamps
    rw [split, List.map_append, List.map_cons, List.nodup_append, List.nodup_cons] at stamps
    refine ⟨before.map patchCall, patchCall change, after.map patchCall, by simp [split],
      writes, ?_⟩
    intro call isLater entry' writes' same
    rcases List.mem_map.mp isLater with ⟨later, isAfter, rfl⟩
    have sameStamp : changeStamp later = changeStamp change := by
      rw [← stamp_of_writesEntry writes', ← stamp_of_writesEntry writes]
      exact (Prod.mk.inj (toLex_inj.mp same)).2
    exact stamps.2.1.1 (List.mem_map.mpr ⟨later, isAfter, sameStamp⟩)

end Written

section Loaded

variable {id : String} {e e' : Entity}

theorem graph_of_loaded (loaded : Loaded id e) : Entity.Graph e := by
  induction loaded with
  | new => exact Entity.newEntity_graph id
  | apply c ch wall _ success induction => exact induction.applied success

/-- The versions of a short path are what the changes write there. -/
theorem mem_versions_of_loaded (loaded : Loaded id e) (apart : WritesApart e.changes)
    {p : List String} (short : p.length ≤ 3) {entry : Entry} :
    entry ∈ e.state.versions p ↔
      (∃ change ∈ e.changes, (patchCall change).WritesEntry entry) ∧ entry.path = p := by
  have decoded : ∀ call ∈ e.changes.map patchCall, call.Decoded := by
    intro call member
    rcases List.mem_map.mp member with ⟨change, isChange, rfl⟩
    exact apart.decoded change isChange
  rw [(Map.mem_versions_iff_stands decoded (.inl short) (performCalls_of_loaded loaded)).2,
    apart.stands_iff]

/-- The heads are kept in order. -/
theorem sorted_heads (loaded : Loaded id e) : KeyedList.Sorted (fun head => head) e.heads := by
  induction loaded with
  | new => exact KeyedList.Sorted.nil
  | apply c ch wall _ success induction =>
      rcases Entity.exists_append_of_applied success with ⟨found, clock, state, -, rfl⟩
      apply List.Pairwise.sublist (Entity.heads_sublist_foldl_link _ _ _)
      exact KeyedList.sorted_set induction c

/-- The clock has tracked the greatest of the times. -/
theorem maxTime_eq (loaded : Loaded id e) :
    e.maxClock.maxTime = (e.changes.map fun change => change.2.hlcTime).foldl max 0 := by
  induction loaded with
  | new => exact rfl
  | apply c ch wall _ success induction =>
      have applied := Entity.applied_of_applyChange_eq_ok success
      rw [Clock.track_maxTime applied.tracked, applied.changes_eq, List.map_append,
        List.foldl_append, ← induction]
      exact rfl

/-- The time of an actor is the greatest of the times of its changes. -/
theorem vectorClock_eq (loaded : Loaded id e) (actor : Principal) :
    e.vectorClock actor = ((e.changes.filter fun change => change.2.signer = actor).map
      fun change => change.2.hlcTime).foldl max 0 := by
  induction loaded with
  | new => exact rfl
  | apply c ch wall _ success induction =>
      have applied := Entity.applied_of_applyChange_eq_ok success
      rw [applied.vector_eq, applied.changes_eq, Function.update_apply, List.filter_append,
        List.map_append, List.foldl_append, ← induction]
      by_cases same : actor = ch.signer
      · subst same
        simpa using applied.admits.actor_le
      · simp [same, Ne.symm same]

theorem isApplied_iff (loaded : Loaded id e) (c : String) :
    (e.applied c).isSome ↔ c ∈ e.changes.map Prod.fst := by
  rw [List.mem_map]
  constructor
  · intro isApplied
    rcases Option.isSome_iff_exists.mp isApplied with ⟨i, isIndex⟩
    rcases ((graph_of_loaded loaded).applied_iff c i).mp isIndex with ⟨ch, found⟩
    exact ⟨(c, ch), List.mem_of_getElem? found, rfl⟩
  · rintro ⟨⟨_, ch⟩, member, rfl⟩
    rcases (graph_of_loaded loaded).exists_index member with ⟨i, -, isIndex⟩
    exact Option.isSome_iff_exists.mpr ⟨i, isIndex⟩

/-- No change was applied twice. -/
theorem nodup_changes (loaded : Loaded id e) : (e.changes.map Prod.fst).Nodup := by
  induction loaded with
  | new => exact List.nodup_nil
  | @apply before _ c ch wall loaded success induction =>
      have applied := Entity.applied_of_applyChange_eq_ok success
      have fresh : c ∉ before.changes.map Prod.fst := by
        intro known
        have isApplied := (isApplied_iff loaded c).mpr known
        rw [applied.admits.fresh] at isApplied
        cases isApplied
      rw [applied.changes_eq, List.map_append, List.nodup_append]
      refine ⟨induction, List.nodup_singleton _, ?_⟩
      rintro other member _ isNew rfl
      rw [List.mem_singleton.mp isNew] at member
      exact fresh member

/-- The changes that can be applied. -/
theorem applyOffer_isSome_iff (sound : e.Sound) (offer : Offer) :
    (e.applyOffer offer).isSome ↔ e.Admits offer.c offer.ch ∧
      (∃ clock, e.maxClock.track offer.ch.hlcTime offer.wall = .ok clock) ∧
        ∃ ws, writes offer.ch.patch = .ok ws := by
  have spec := Map.applyPatch_spec sound.map_sound offer.ch.hlcTime (originFromCID offer.c)
    offer.ch.patch
  constructor
  · intro accepted
    rcases Option.isSome_iff_exists.mp accepted with ⟨next, isNext⟩
    have applied := Entity.applied_of_applyChange_eq_ok (Entity.applyOffer_eq_some isNext)
    refine ⟨applied.admits, ⟨_, applied.tracked⟩, ?_⟩
    cases listed : writes offer.ch.patch with
    | ok ws => exact ⟨ws, rfl⟩
    | error abort =>
        simp only [listed] at spec
        cases spec.symm.trans applied.state_eq
  · rintro ⟨admits, ⟨clock, tracked⟩, ws, listed⟩
    simp only [listed] at spec
    rcases spec with ⟨state, patched, -, -⟩
    rcases Entity.applyChange_of_admits admits tracked patched with ⟨next, success⟩
    rw [Entity.applyOffer, success]
    exact rfl

/-- The dependencies of a single head are returned as they are listed. -/
theorem headDeps_of_single (loaded : Loaded id e) {head : String} (single : e.heads = [head]) :
    ∃ ch, (head, ch) ∈ e.changes ∧ ∀ fuel order, e.headDeps fuel order = .ok ch.deps := by
  have graph := graph_of_loaded loaded
  have isHead : head ∈ e.heads := by simp [single]
  rcases Option.isSome_iff_exists.mp ((graph.heads_iff head).mp isHead).1 with ⟨i, isIndex⟩
  rcases (graph.applied_iff head i).mp isIndex with ⟨ch, found⟩
  refine ⟨ch, List.mem_of_getElem? found, fun fuel order => ?_⟩
  simp [Entity.headDeps, single, isIndex, found]

theorem perm_of_mem_iff {e' : Entity} (loaded : Loaded id e) (loaded' : Loaded id e')
    (same : ∀ change, change ∈ e.changes ↔ change ∈ e'.changes) : e.changes.Perm e'.changes :=
  (List.perm_ext_iff_of_nodup (nodup_changes loaded).of_map (nodup_changes loaded').of_map).mpr same

end Loaded

section Agree

variable {id : String} {e e' : Entity} (loaded : Loaded id e) (loaded' : Loaded id e')
  (perm : e.changes.Perm e'.changes)

include perm

theorem directDep_iff_of_perm (dep c : String) : e.DirectDep dep c ↔ e'.DirectDep dep c := by
  simp only [Entity.DirectDep, perm.mem_iff]

include loaded loaded'

theorem isApplied_iff_of_perm (c : String) : (e.applied c).isSome ↔ (e'.applied c).isSome := by
  rw [isApplied_iff loaded, isApplied_iff loaded', (perm.map Prod.fst).mem_iff]

theorem heads_eq_of_perm : e.heads = e'.heads := by
  apply (sorted_heads loaded).eq_of_mem_iff (sorted_heads loaded')
  intro c
  rw [(graph_of_loaded loaded).heads_iff, (graph_of_loaded loaded').heads_iff,
    isApplied_iff_of_perm loaded loaded' perm]
  simp only [perm.mem_iff]

theorem maxClock_eq_of_perm : e.maxClock = e'.maxClock := by
  have same : e.maxClock.maxTime = e'.maxClock.maxTime := by
    rw [maxTime_eq loaded, maxTime_eq loaded']
    exact (perm.map _).foldl_eq 0
  cases clock : e.maxClock
  cases clock' : e'.maxClock
  rw [clock, clock'] at same
  exact congrArg Clock.mk same

theorem vectorClock_eq_of_perm : e.vectorClock = e'.vectorClock := by
  funext actor
  rw [vectorClock_eq loaded, vectorClock_eq loaded']
  exact ((perm.filter _).map _).foldl_eq 0

theorem admits_iff_of_perm (c : String) (ch : Change) : e.Admits c ch ↔ e'.Admits c ch := by
  have ids : e.id = e'.id :=
    (Entity.sound_of_loaded loaded).2.trans (Entity.sound_of_loaded loaded').2.symm
  have isApplied := isApplied_iff_of_perm loaded loaded' perm
  have fresh : e.applied c = none ↔ e'.applied c = none := by
    rw [← Option.not_isSome_iff_eq_none, ← Option.not_isSome_iff_eq_none, isApplied]
  have clock := maxClock_eq_of_perm loaded loaded' perm
  have vector := vectorClock_eq_of_perm loaded loaded' perm
  constructor
  · rintro ⟨own, isFresh, signed, actor_le, clock_le, deps⟩
    exact ⟨own.trans ids, fresh.mp isFresh, signed, vector ▸ actor_le, clock ▸ clock_le,
      fun dep isDep => (isApplied dep).mp (deps dep isDep)⟩
  · rintro ⟨own, isFresh, signed, actor_le, clock_le, deps⟩
    exact ⟨own.trans ids.symm, fresh.mpr isFresh, signed, vector ▸ actor_le, clock ▸ clock_le,
      fun dep isDep => (isApplied dep).mpr (deps dep isDep)⟩

theorem headDeps_of_perm (order order' : IndexOrder) : ∃ deps deps',
    Converges (fun fuel => e.headDeps fuel order) (.ok deps) ∧
      Converges (fun fuel => e'.headDeps fuel order') (.ok deps') ∧ deps.Perm deps' := by
  have heads_eq := heads_eq_of_perm loaded loaded' perm
  rcases isHeads : e.heads with _ | ⟨head, _ | ⟨second, rest⟩⟩
  · refine ⟨[], [], ⟨0, fun fuel _ => ?_⟩, ⟨0, fun fuel _ => ?_⟩, .refl _⟩
    · simp [Entity.headDeps, isHeads]
    · simp [Entity.headDeps, ← heads_eq, isHeads]
  · rcases headDeps_of_single loaded isHeads with ⟨ch, member, deps_eq⟩
    rcases headDeps_of_single loaded' (heads_eq.symm.trans isHeads) with ⟨ch', member', deps_eq'⟩
    cases (graph_of_loaded loaded').change_unique (perm.mem_iff.mp member) member'
    exact ⟨ch.deps, ch.deps, ⟨0, fun fuel _ => deps_eq fuel order⟩,
      ⟨0, fun fuel _ => deps_eq' fuel order'⟩, .refl _⟩
  · have several : 2 ≤ e.heads.length := by simp [isHeads]
    rcases (graph_of_loaded loaded).headDeps_converges order several with
      ⟨deps, returned, nodup, mem_iff⟩
    rcases (graph_of_loaded loaded').headDeps_converges order' (heads_eq ▸ several) with
      ⟨deps', returned', nodup', mem_iff'⟩
    refine ⟨deps, deps', returned, returned', (List.perm_ext_iff_of_nodup nodup nodup').mpr ?_⟩
    have direct : e.DirectDep = e'.DirectDep := by
      funext dep c
      exact propext (directDep_iff_of_perm perm dep c)
    have collected : e.HeadDep = e'.HeadDep := by
      funext dep
      rw [Entity.HeadDep, Entity.HeadDep, heads_eq, direct]
    intro dep
    rw [mem_iff, mem_iff', direct, collected]

theorem readsAlike_of_perm (apart : WritesApart e.changes) : Map.ReadsAlike e.state e'.state := by
  have sound := (Entity.sound_of_loaded loaded).1.map_sound
  have sound' := (Entity.sound_of_loaded loaded').1.map_sound
  apply Map.readsAlike_of_versions sound sound'
  intro p short
  apply (sound.sortedAt short).versions.eq_of_mem_iff (sound'.sortedAt short).versions
  intro entry
  rw [mem_versions_of_loaded loaded apart short,
    mem_versions_of_loaded loaded' (apart.perm perm) short]
  simp only [perm.mem_iff]

/-- Entities agree when they were built of the same changes. -/
theorem agree_of_perm (apart : WritesApart e.changes) : Agree e e' := by
  have clock := maxClock_eq_of_perm loaded loaded' perm
  constructor
  · exact readsAlike_of_perm loaded loaded' perm apart
  · exact heads_eq_of_perm loaded loaded' perm
  · exact clock
  · exact vectorClock_eq_of_perm loaded loaded' perm
  · exact headDeps_of_perm loaded loaded' perm
  · intro offer
    rw [Bool.eq_iff_iff, applyOffer_isSome_iff (Entity.sound_of_loaded loaded).1,
      applyOffer_isSome_iff (Entity.sound_of_loaded loaded').1,
      admits_iff_of_perm loaded loaded' perm, clock]

end Agree

/-! ## Loading from stores -/

section Stores

variable {Data : Type} {F : Formats Data} {order order' : RowOrder} {s s' : Store Data}
variable {wall wall' : Nat → Int} {eid : String} {e e' : Entity}
variable {selected selected' : StructuralBlobRow → Bool} {change : String × Change}

/-- The row holds the change under its CID. -/
def HoldsChange (F : Formats Data) (row : BlobRow Data) (change : String × Change) : Prop :=
  change.1 = rowCid F row ∧ Holds F row change.2

/-- The change is one of those that the filter selects. -/
def Selects (F : Formats Data) (s : Store Data) (selected : StructuralBlobRow → Bool)
    (change : String × Change) : Prop :=
  ∃ row ∈ s.structuralBlobs, selected row = true ∧
    ∃ blob, s.blobRow row.blob = some blob ∧ HoldsChange F blob change

/-- A row is loaded by applying the change that it holds. -/
theorem applied_of_loadRow {n : Nat} {row : BlobRow Data}
    (returns : (loadRow F wall n e row).Returns e') :
    ∃ ch, Holds F row ch ∧ e.applyChange (rowCid F row) ch (wall n) = .ok (e', .ok ()) := by
  rw [loadRow] at returns
  split at returns
  · exact absurd returns Attempt.not_returns_throw
  · next data isData =>
      rcases Attempt.returns_bind.mp returns with ⟨ch, decoded, stored⟩
      refine ⟨ch, ⟨data, isData, Attempt.returns_ofExcept.mp decoded⟩, ?_⟩
      rw [Attempt.Returns, Entity.applyStored, ExceptT.run_mk] at stored
      rcases bind_eq_ok.mp stored with ⟨⟨applied, result⟩, isApplied, isResult⟩
      cases result with
      | error err => cases isResult
      | ok =>
          cases isResult
          exact isApplied

theorem holdsChange_iff {row : BlobRow Data} {ch : Change} (holds : Holds F row ch) :
    HoldsChange F row change ↔ change = (rowCid F row, ch) := by
  constructor
  · rintro ⟨isCid, holds'⟩
    exact Prod.ext isCid (holds'.unique holds)
  · rintro rfl
    exact ⟨rfl, holds⟩

/-- Loading rows applies the changes that they hold. -/
theorem loaded_of_loadRows {n : Nat} {rows : List (BlobRow Data)} (loaded : Loaded eid e)
    (returns : (loadRows F wall n e rows).Returns e') :
    Loaded eid e' ∧ ∀ change, change ∈ e'.changes ↔
      change ∈ e.changes ∨ ∃ row ∈ rows, HoldsChange F row change := by
  induction rows generalizing n e with
  | nil =>
      cases Attempt.returns_pure.mp returns
      exact ⟨loaded, by simp⟩
  | cons row rows induction =>
      rcases Attempt.returns_bind.mp returns with ⟨e₁, first, rest⟩
      rcases applied_of_loadRow first with ⟨ch, holds, success⟩
      rcases induction (.apply _ ch _ loaded success) rest with ⟨loaded', mem_iff⟩
      refine ⟨loaded', fun change => ?_⟩
      rw [mem_iff, (Entity.applied_of_applyChange_eq_ok success).changes_eq, List.mem_append,
        List.mem_singleton, List.exists_mem_cons_iff, holdsChange_iff holds, or_assoc]

/-- What is loaded consists of the changes that are selected. -/
theorem loaded_of_loadSelected
    (returns : (loadSelected F order s wall eid selected).Returns (some e)) :
    Loaded eid e ∧ ∀ change, change ∈ e.changes ↔ Selects F s selected change := by
  rw [loadSelected, Attempt.returns_bind] at returns
  rcases returns with ⟨entity, rows, returned⟩
  have isEntity : entity = e := by
    have same := Attempt.returns_pure.mp returned
    split_ifs at same
    exact Option.some.inj same
  subst isEntity
  rcases loaded_of_loadRows .new rows with ⟨loaded, mem_iff⟩
  refine ⟨loaded, fun change => ?_⟩
  rw [mem_iff]
  constructor
  · rintro (none | ⟨blob, isBlob, holds⟩)
    · exact absurd none List.not_mem_nil
    · rcases List.mem_filterMap.mp isBlob with ⟨row, isRow, found⟩
      rcases List.mem_filter.mp (mem_sort.mp isRow) with ⟨member, isSelected⟩
      exact ⟨row, member, isSelected, blob, found, holds⟩
  · rintro ⟨row, member, isSelected, blob, found, holds⟩
    apply Or.inr
    refine ⟨blob, List.mem_filterMap.mpr ⟨row, ?_, found⟩, holds⟩
    exact mem_sort.mpr (List.mem_filter.mpr ⟨member, isSelected⟩)

/-- Loads that select the same changes load them in some order. -/
theorem perm_of_loadSelected
    (returns : (loadSelected F order s wall eid selected).Returns (some e))
    (returns' : (loadSelected F order' s' wall' eid selected').Returns (some e'))
    (same : ∀ change, Selects F s selected change ↔ Selects F s' selected' change) :
    e.changes.Perm e'.changes := by
  rcases loaded_of_loadSelected returns with ⟨loaded, mem_iff⟩
  rcases loaded_of_loadSelected returns' with ⟨loaded', mem_iff'⟩
  apply perm_of_mem_iff loaded loaded'
  intro change
  rw [mem_iff, mem_iff', same]

/--
Two nodes that select the same changes of an entity load entities that agree, whatever the
order of the changes of one time, the clocks of the nodes and their other blobs.
-/
theorem replicas_agree
    (returns : (loadSelected F order s wall eid selected).Returns (some e))
    (returns' : (loadSelected F order' s' wall' eid selected').Returns (some e'))
    (same : ∀ change, Selects F s selected change ↔ Selects F s' selected' change)
    (apart : WritesApart e.changes) : Agree e e' :=
  agree_of_perm (loaded_of_loadSelected returns).1 (loaded_of_loadSelected returns').1
    (perm_of_loadSelected returns returns' same) apart

end Stores

/-! ## Samples -/

/-- A document and two changes of one time on top of it. -/
def concurrentChanges : List (String × Change) :=
  [("croot12345", (Entity.titled "" [] 5 "Title").ch),
    ("cleft12345", (Entity.titled "" ["croot12345"] 6 "Left").ch),
    ("cright1234", (Entity.titled "" ["croot12345"] 6 "Right").ch)]

theorem decoded_title (title : String) : Decoded [("title", .string title)] :=
  decoded_of_flat rfl (by simp)

/-- The structural row of a change. -/
def changeRow (change : String × Change) : StructuralBlobRow where
  blob := sampleCidHash change.1
  type := "Change"
  ts := some change.2.hlcTime
  author := none
  resource := some change.2.entity
  title := none

/-- A store of changes; the rows come in the order of their arrival. -/
def storeOf (changes : List (String × Change)) : Store DecodedBlob :=
  { (Store.empty : Store DecodedBlob) with
    blobs := changes.zipIdx.map fun item =>
      ⟨item.2, sampleCidHash item.1.1, dagCbor, some (.change item.1.2), 1⟩
    structuralBlobs := changes.map changeRow }

/-- The same rows in the other order. -/
def Store.reversed (s : Store DecodedBlob) : Store DecodedBlob :=
  { s with structuralBlobs := s.structuralBlobs.reverse }

theorem selects_reversed_iff {F : Formats DecodedBlob} {s : Store DecodedBlob}
    {selected : StructuralBlobRow → Bool} (change : String × Change) :
    Selects F s selected change ↔ Selects F s.reversed selected change := by
  simp only [Selects, Store.reversed, List.mem_reverse, Store.blobRow]

/-- An entity that a store loads. -/
abbrev LoadedFrom (s : Store DecodedBlob) : Type :=
  Evaluated (loadSelected (sampleFormats sampleSha256) .stable s (fun _ => 100) "hm://d/doc"
    fun _ => true).returned.join

theorem LoadedFrom.returns {s : Store DecodedBlob} (loaded : LoadedFrom s) :
    (loadSelected (sampleFormats sampleSha256) .stable s (fun _ => 100) "hm://d/doc"
      fun _ => true).Returns (some loaded.val) :=
  Attempt.returned_eq_some.mp (Option.join_eq_some_iff.mp loaded.property)

/-- The entity, loaded as the rows are stored. -/
def leftFirst : LoadedFrom (storeOf concurrentChanges) := .of (by decide +kernel)

/-- The entity, loaded from the rows in reverse order. -/
def rightFirst : LoadedFrom (storeOf concurrentChanges).reversed := .of (by decide +kernel)

theorem replicas_agree_concurrent :
    leftFirst.val.changes ≠ rightFirst.val.changes ∧ Agree leftFirst.val rightFirst.val := by
  have changes_eq : leftFirst.val.changes = concurrentChanges := by decide +kernel
  refine ⟨by decide +kernel, ?_⟩
  apply replicas_agree leftFirst.returns rightFirst.returns selects_reversed_iff
  rw [changes_eq]
  constructor
  · decide +kernel
  · intro change member
    simp only [concurrentChanges, List.mem_cons, List.not_mem_nil, or_false] at member
    rcases member with rfl | rfl | rfl <;> exact decoded_title _

end Mintter.Hyper
