import Mathlib.Data.List.Sort
import Mintter.Hyper.Loading
import Mintter.Hyper.Ownership

/-!
# Which stores can be loaded

Loading refuses changes that indexing accepts.  `ChangesSound` is what holds of
the stored changes when every one that arrives is `Loadable`: then each selection
that contains the dependencies of its changes can be applied in the order of
their times.
-/

namespace Mintter.Hyper

open Mintter.Foundation
open Mintter.Crdt2

variable {Data : Type}

section Apply

variable {F : Formats Data} {wall : Nat → Int} {e : Entity} {c eid : String}
variable {ch : Change} {n : Nat}

/-- The clock tracks a timestamp that is not too far ahead. -/
def Trackable (t wall : Int) : Prop := ∃ diff, validateSkew t wall = .ok diff

theorem track_of_trackable {t w : Int} (trackable : Trackable t w) (hc : Clock) :
    hc.track t w = .ok (hc.keepMax t) := by
  rcases trackable with ⟨diff, isDiff⟩
  rw [Clock.track, isDiff]

/-- A change is applied when the entity admits it and its patch can be written. -/
theorem applyStored_returns (sound : e.Sound) (admits : e.Admits c ch)
    (trackable : Trackable ch.hlcTime (wall n))
    (patch : ∃ ws, writes ch.patch = .ok ws) :
    ∃ e', (e.applyStored wall c ch n).Returns e' ∧
      e.Applied c ch (wall n) e' := by
  rcases patch with ⟨ws, written⟩
  have spec := Map.applyPatch_spec sound.map_sound ch.hlcTime (originFromCID c)
    ch.patch
  simp only [written] at spec
  rcases spec with ⟨state, patched, -, -⟩
  rcases Entity.applyChange_of_admits admits
    (track_of_trackable trackable e.maxClock) patched with ⟨e', success⟩
  refine ⟨e', ?_, Entity.applied_of_applyChange_eq_ok success⟩
  rw [Attempt.Returns, Entity.applyStored, ExceptT.run_mk, success]
  rfl

/-- The row holds this change. -/
def Holds (F : Formats Data) (row : BlobRow Data) (ch : Change) : Prop :=
  ∃ data, row.data = some data ∧ F.decodeChange data = .ok ch

theorem Holds.unique {row : BlobRow Data} {ch' : Change} (holds : Holds F row ch)
    (holds' : Holds F row ch') : ch = ch' := by
  rcases holds with ⟨data, isData, decoded⟩
  rcases holds' with ⟨data', isData', decoded'⟩
  cases isData.symm.trans isData'
  exact Except.ok.inj (decoded.symm.trans decoded')

theorem loadRow_of_holds {row : BlobRow Data} (holds : Holds F row ch) :
    loadRow F wall n e row =
      e.applyStored wall (F.newCidV1 row.codec row.multihash) ch n := by
  rcases holds with ⟨data, isData, decoded⟩
  rw [loadRow, isData]
  simp only [decoded]
  rfl

/-- The CID under which a row is applied. -/
def rowCid (F : Formats Data) (row : BlobRow Data) : String :=
  F.newCidV1 row.codec row.multihash

/-- Changes that can be applied, apart from their order. -/
structure Applies (F : Formats Data) (wall : Nat → Int) (eid : String)
    (row : BlobRow Data) (ch : Change) : Prop where
  holds : Holds F row ch
  entity : ch.entity = eid
  signed : ch.signer ≠ []
  patch : ∃ ws, writes ch.patch = .ok ws
  trackable : ∀ n, Trackable ch.hlcTime (wall n)

/-- Rows in the order of their times, with the dependencies among them. -/
structure Ordered (F : Formats Data) (done : List String)
    (rows : List (BlobRow Data)) : Prop where
  sorted : rows.Pairwise fun row row' => ∀ ch ch', Holds F row ch →
    Holds F row' ch' → ch.hlcTime ≤ ch'.hlcTime
  nodup : (rows.map (rowCid F)).Nodup
  fresh : ∀ row ∈ rows, rowCid F row ∉ done
  deps : ∀ row ∈ rows, ∀ ch, Holds F row ch → ∀ dep ∈ ch.deps, dep ∈ done ∨
    ∃ row' ∈ rows, rowCid F row' = dep ∧
      ∃ ch', Holds F row' ch' ∧ ch'.hlcTime < ch.hlcTime

/-- The first of the rows depends only on what has been applied before. -/
theorem Ordered.first {done : List String} {row : BlobRow Data}
    {rows : List (BlobRow Data)} (ordered : Ordered F done (row :: rows))
    (holds : Holds F row ch) : ∀ dep ∈ ch.deps, dep ∈ done := by
  intro dep isDep
  rcases ordered.deps row (List.mem_cons_self ..) ch holds dep isDep with
    before | ⟨row', isRow', -, ch', holds', earlier⟩
  · exact before
  · rcases List.mem_cons.mp isRow' with rfl | later
    · rw [holds.unique holds'] at earlier
      exact absurd earlier (lt_irrefl _)
    · have inOrder := (List.pairwise_cons.mp ordered.sorted).1 row' later ch ch'
        holds holds'
      exact absurd earlier inOrder.not_gt

theorem Ordered.rest {done : List String} {row : BlobRow Data}
    {rows : List (BlobRow Data)} (ordered : Ordered F done (row :: rows)) :
    Ordered F (rowCid F row :: done) rows where
  sorted := (List.pairwise_cons.mp ordered.sorted).2
  nodup := (List.nodup_cons.mp ordered.nodup).2
  fresh := fun row' isRow' applied => by
    rcases List.mem_cons.mp applied with same | before
    · exact (List.nodup_cons.mp ordered.nodup).1
        (same ▸ List.mem_map_of_mem isRow')
    · exact ordered.fresh row' (List.mem_cons_of_mem row isRow') before
  deps := fun row' isRow' ch holds dep isDep => by
    rcases ordered.deps row' (List.mem_cons_of_mem row isRow') ch holds dep isDep
      with before | ⟨other, isOther, isCid, earlier⟩
    · exact .inl (List.mem_cons_of_mem _ before)
    · rcases List.mem_cons.mp isOther with rfl | later
      · exact .inl (isCid ▸ List.mem_cons_self ..)
      · exact .inr ⟨other, later, isCid, earlier⟩

/-- What is known of the entity while rows are applied. -/
structure LoadState (eid : String) (done : List String) (e : Entity) : Prop where
  sound : e.Sound
  id_eq : e.id = eid
  applied_iff : ∀ c, (e.applied c).isSome ↔ c ∈ done

theorem LoadState.applied {done : List String} {e' : Entity} {w : Int}
    (state : LoadState eid done e) (applied : e.Applied c ch w e') :
    LoadState eid (c :: done) e' ∧ e'.maxClock.maxTime = ch.hlcTime := by
  refine ⟨⟨applied.sound state.sound, applied.id_eq.trans state.id_eq,
    fun c' => ?_⟩, ?_⟩
  · rw [applied.applied_eq, Function.update_apply, List.mem_cons,
      ← state.applied_iff c']
    split_ifs with same <;> simp [same]
  · rw [Clock.track_maxTime applied.tracked,
      max_eq_right applied.admits.clock_le]

/-- Rows that are in order are applied without an error. -/
theorem loadRows_returns {done : List String} {rows : List (BlobRow Data)}
    (state : LoadState eid done e) (ordered : Ordered F done rows)
    (applies : ∀ row ∈ rows, ∃ ch, Applies F wall eid row ch ∧
      e.maxClock.maxTime ≤ ch.hlcTime) :
    ∃ e', (loadRows F wall n e rows).Returns e' := by
  induction rows generalizing n e done with
  | nil => exact ⟨e, Attempt.returns_pure.mpr rfl⟩
  | cons row rows induction =>
      rcases applies row (List.mem_cons_self ..) with ⟨ch, isChange, inTime⟩
      have admits : e.Admits (rowCid F row) ch := {
        entity_eq := isChange.entity.trans state.id_eq.symm
        fresh := by
          rw [← Option.not_isSome_iff_eq_none, state.applied_iff]
          exact ordered.fresh row (List.mem_cons_self ..)
        signed := isChange.signed
        actor_le := (state.sound.vector_le ch.signer).trans inTime
        clock_le := inTime
        deps_applied := fun dep isDep => (state.applied_iff dep).mpr
          (ordered.first isChange.holds dep isDep) }
      rcases applyStored_returns state.sound admits (isChange.trackable n)
        isChange.patch with ⟨e', returns, applied⟩
      rcases state.applied applied with ⟨state', newest⟩
      have later : ∀ row' ∈ rows, ∃ ch', Applies F wall eid row' ch' ∧
          e'.maxClock.maxTime ≤ ch'.hlcTime := by
        intro row' isRow'
        rcases applies row' (List.mem_cons_of_mem row isRow') with ⟨ch', isChange', -⟩
        refine ⟨ch', isChange', ?_⟩
        rw [newest]
        exact (List.pairwise_cons.mp ordered.sorted).1 row' isRow' ch ch'
          isChange.holds isChange'.holds
      rcases induction (n := n + 1) state' ordered.rest later with ⟨last, rest⟩
      refine ⟨last, ?_⟩
      rw [loadRows, Attempt.returns_bind, loadRow_of_holds isChange.holds]
      exact ⟨e', returns, rest⟩

theorem loadState_newEntity (eid : String) : LoadState eid [] (newEntity eid) where
  sound := Entity.newEntity_sound eid
  id_eq := rfl
  applied_iff := fun c => by simp [newEntity, newEntityWithClock]

end Apply

section Selected

variable {F : Formats Data} {order : RowOrder} {s t : Store Data}
variable {wall : Nat → Int} {eid : String} {row row' : StructuralBlobRow}
variable {ch : Change}

/-- The row of a change, and the change that its blob holds. -/
structure StoredChange (F : Formats Data) (s : Store Data)
    (row : StructuralBlobRow) (ch : Change) : Prop where
  isRow : row ∈ s.structuralBlobs
  type : row.type = "Change"
  resource : row.resource = if ch.entity = "" then none else some ch.entity
  ts : row.ts = nonzeroTime ch.hlcTime
  block : ∃ blob, s.blobRow row.blob = some blob ∧ 0 ≤ blob.size ∧
    blob.codec = dagCbor ∧ Holds F blob ch

/-- The dependency is an earlier change of the same resource. -/
def DependsOn (F : Formats Data) (s : Store Data) (resource : Option String)
    (time : Int) (dep : String) : Prop :=
  ∃ row ∈ s.structuralBlobs, row.type = "Change" ∧ row.resource = resource ∧
    dep = F.newCidV1 dagCbor row.blob ∧ ∃ ts, row.ts = some ts ∧ ts < time

/-- A stored change that can be applied after its dependencies. -/
structure SoundChange (F : Formats Data) (s : Store Data)
    (row : StructuralBlobRow) (ch : Change) : Prop where
  stored : StoredChange F s row ch
  signed : ch.signer ≠ []
  nonneg : 0 ≤ ch.hlcTime
  patch : ∃ ws, writes ch.patch = .ok ws
  linked : ∀ dep ∈ ch.deps, (row.blob, F.cidHash dep) ∈ changeDeps s
  deps : ∀ dep ∈ ch.deps, DependsOn F s row.resource ch.hlcTime dep

/-- All stored changes are sound, and the edges are their dependencies. -/
structure ChangesSound (F : Formats Data) (s : Store Data) : Prop where
  nodup : s.structuralBlobs.Pairwise fun row row' => row.blob ≠ row'.blob
  drafts : s.drafts = []
  changes : ∀ row ∈ s.structuralBlobs, row.type = "Change" →
    ∃ ch, SoundChange F s row ch
  edges : ∀ source target, (source, target) ∈ changeDeps s →
    ∃ row ch, SoundChange F s row ch ∧ row.blob = source ∧
      ∃ dep ∈ ch.deps, F.cidHash dep = target

/-- Rows are known by their blobs. -/
theorem ChangesSound.row_eq (sound : ChangesSound F s)
    (isRow : row ∈ s.structuralBlobs) (isRow' : row' ∈ s.structuralBlobs)
    (same : row.blob = row'.blob) : row = row' := by
  have symm : Std.Symm fun row row' : StructuralBlobRow => row.blob ≠ row'.blob :=
    ⟨fun _ _ => Ne.symm⟩
  by_contra other
  exact sound.nodup.forall isRow isRow' other same

theorem blobRow_multihash {hash : String} {blob : BlobRow Data}
    (found : s.blobRow hash = some blob) : blob.multihash = hash := by
  simpa using List.find?_some found

theorem StoredChange.rowCid {blob : BlobRow Data} (stored : StoredChange F s row ch)
    (found : s.blobRow row.blob = some blob) :
    Hyper.rowCid F blob = F.newCidV1 dagCbor row.blob ∧ Holds F blob ch := by
  rcases stored.block with ⟨blob', found', -, isCbor, holds⟩
  cases found.symm.trans found'
  rw [Hyper.rowCid, isCbor, blobRow_multihash found]
  exact ⟨rfl, holds⟩

/-- The stored time is the time of the change. -/
theorem SoundChange.ts_eq (sound : SoundChange F s row ch) :
    row.ts = some ch.hlcTime := by
  rw [sound.stored.ts, nonzeroTime, if_neg]
  have nonneg := sound.nonneg
  intro isZero
  rw [isZero] at nonneg
  exact absurd nonneg (by decide)

theorem SoundChange.entity_eq (sound : SoundChange F s row ch)
    (isResource : row.resource = some eid) : ch.entity = eid := by
  rw [sound.stored.resource] at isResource
  split at isResource
  · cases isResource
  · exact Option.some.inj isResource

/-- The dependency of a stored change is the change that its edge leads to. -/
theorem ChangesSound.target (sound : ChangesSound F s) {source target : String}
    (isEdge : (source, target) ∈ changeDeps s) (isRow : row ∈ s.structuralBlobs)
    (isSource : row.blob = source) :
    ∃ row' ∈ s.structuralBlobs, row'.blob = target ∧ row'.type = "Change" ∧
      row'.resource = row.resource := by
  rcases sound.edges source target isEdge with ⟨row₁, ch, soundChange, isSource₁,
    dep, isDep, isTarget⟩
  cases sound.row_eq isRow soundChange.stored.isRow (isSource.trans isSource₁.symm)
  rcases soundChange.deps dep isDep with ⟨row', isRow', isChange, isResource, isCid, -⟩
  refine ⟨row', isRow', ?_, isChange, isResource⟩
  rw [← isTarget, isCid, F.cidHash_newCidV1]

/-- A selection of changes of one entity that contains their dependencies. -/
structure Selection (s : Store Data) (eid : String)
    (selected : StructuralBlobRow → Bool) : Prop where
  changes : ∀ row ∈ s.structuralBlobs, selected row = true →
    row.type = "Change" ∧ row.resource = some eid
  closed : ∀ row ∈ s.structuralBlobs, ∀ row' ∈ s.structuralBlobs,
    selected row = true → (row.blob, row'.blob) ∈ changeDeps s →
    row'.type = "Change" → row'.resource = some eid → selected row' = true

theorem mem_sort {rows : List StructuralBlobRow} :
    row ∈ order.sort rows ↔ row ∈ rows := (order.perm rows).mem_iff

theorem Selection.ordered (order : RowOrder) (sound : ChangesSound F s)
    {selected : StructuralBlobRow → Bool} (selection : Selection s eid selected) :
    Ordered F [] (selectRows order s selected) := by
  have isSelected : ∀ row, row ∈ order.sort (s.structuralBlobs.filter selected) ↔
      row ∈ s.structuralBlobs ∧ selected row = true := fun row => by
    rw [mem_sort, List.mem_filter]
  have isChange : ∀ row ∈ order.sort (s.structuralBlobs.filter selected),
      ∃ ch, SoundChange F s row ch := fun row member =>
    sound.changes row ((isSelected row).mp member).1
      (selection.changes row ((isSelected row).mp member).1
        ((isSelected row).mp member).2).1
  have distinct : (order.sort (s.structuralBlobs.filter selected)).Pairwise
      fun row row' => row.blob ≠ row'.blob :=
    ((order.perm _).pairwise_iff (fun {_ _} => Ne.symm)).mpr
      (sound.nodup.filter selected)
  refine ⟨?_, ?_, fun _ _ => List.not_mem_nil, ?_⟩
  · rw [selectRows, List.pairwise_filterMap]
    apply (order.sorted _).imp_of_mem
    intro row row' member member' inOrder blob found blob' found' ch ch' holds holds'
    rcases isChange row member with ⟨ch₁, first⟩
    rcases isChange row' member' with ⟨ch₂, second⟩
    rw [holds.unique (first.stored.rowCid found).2,
      holds'.unique (second.stored.rowCid found').2]
    rw [timeLe, first.ts_eq, second.ts_eq] at inOrder
    exact inOrder
  · rw [selectRows, List.Nodup, List.pairwise_map, List.pairwise_filterMap]
    apply distinct.imp_of_mem
    intro row row' member member' other blob found blob' found'
    rcases isChange row member with ⟨ch₁, first⟩
    rcases isChange row' member' with ⟨ch₂, second⟩
    rw [(first.stored.rowCid found).1, (second.stored.rowCid found').1]
    intro same
    apply other
    rw [← F.cidHash_newCidV1 dagCbor row.blob, same, F.cidHash_newCidV1]
  · intro blob isBlob ch holds dep isDep
    rcases List.mem_filterMap.mp isBlob with ⟨row, member, found⟩
    rcases isChange row member with ⟨ch₁, first⟩
    cases holds.unique (first.stored.rowCid found).2
    rcases first.deps dep isDep with ⟨row', isRow', isType, isResource, isCid, ts,
      isTime, earlier⟩
    rcases sound.changes row' isRow' isType with ⟨ch', second⟩
    rcases second.stored.block with ⟨blob', found', -, -, holds'⟩
    refine .inr ⟨blob', List.mem_filterMap.mpr ⟨row', ?_, found'⟩, ?_, ch', holds', ?_⟩
    · have old := (isSelected row).mp member
      have ofEntity := (selection.changes row old.1 old.2).2
      have isEdge := first.linked dep isDep
      rw [isCid, F.cidHash_newCidV1] at isEdge
      exact (isSelected row').mpr ⟨isRow', selection.closed row old.1 row' isRow'
        old.2 isEdge isType (isResource.trans ofEntity)⟩
    · rw [(second.stored.rowCid found').1, isCid]
    · rw [second.ts_eq] at isTime
      exact Option.some.inj isTime ▸ earlier

/-- No change of the entity is too far ahead when it is loaded. -/
def InTime (F : Formats Data) (s : Store Data) (wall : Nat → Int) (eid : String) :
    Prop :=
  ∀ n row ch, StoredChange F s row ch → row.resource = some eid →
    Trackable ch.hlcTime (wall n)

/-- No change that is selected is too far ahead when it is loaded. -/
def SelectedInTime (F : Formats Data) (s : Store Data) (wall : Nat → Int)
    (selected : StructuralBlobRow → Bool) : Prop :=
  ∀ n row ch, StoredChange F s row ch → selected row = true →
    Trackable ch.hlcTime (wall n)

theorem InTime.selected (inTime : InTime F s wall eid)
    {selected : StructuralBlobRow → Bool} (selection : Selection s eid selected) :
    SelectedInTime F s wall selected :=
  fun n row ch stored isSelected =>
    inTime n row ch stored (selection.changes row stored.isRow isSelected).2

/-- Sound changes that are selected can be loaded, when it is time for them. -/
theorem loadSelected_returns (order : RowOrder) (sound : ChangesSound F s)
    {selected : StructuralBlobRow → Bool} (inTime : SelectedInTime F s wall selected)
    (selection : Selection s eid selected) :
    ∃ e, (loadSelected F order s wall eid selected).Returns e := by
  have applies : ∀ blob ∈ selectRows order s selected, ∃ ch,
      Applies F wall eid blob ch ∧
        (newEntity eid).maxClock.maxTime ≤ ch.hlcTime := by
    intro blob isBlob
    rcases List.mem_filterMap.mp isBlob with ⟨row, member, found⟩
    have isRow := List.mem_filter.mp (mem_sort.mp member)
    have isChange := selection.changes row isRow.1 isRow.2
    rcases sound.changes row isRow.1 isChange.1 with ⟨ch, soundChange⟩
    exact ⟨ch, ⟨(soundChange.stored.rowCid found).2,
      soundChange.entity_eq isChange.2, soundChange.signed, soundChange.patch,
      fun n => inTime n row ch soundChange.stored isRow.2⟩, soundChange.nonneg⟩
  rcases loadRows_returns (n := 0) (loadState_newEntity eid)
    (selection.ordered order sound) applies with ⟨e, returns⟩
  refine ⟨if e.changes = [] then none else some e, ?_⟩
  rw [loadSelected, Attempt.returns_bind]
  exact ⟨e, returns, Attempt.returns_pure.mpr rfl⟩

end Selected

section Runs

variable {F : Formats Data} {order : FieldOrder} {s s₁ t : Store Data}
variable {row : StructuralBlobRow} {c hash : String} {ch v : Change}
variable {author : Principal} {sb : StructuralBlob} {arrival : Arrival Data}

theorem mem_changeDeps {source target : String} :
    (source, target) ∈ changeDeps s ↔
      ⟨source, "change/dep", target⟩ ∈ s.blobLinks := by
  simp only [changeDeps, List.mem_map, List.mem_filter, beq_iff_eq, Prod.mk.injEq]
  constructor
  · rintro ⟨⟨_, _, _⟩, ⟨isLink, rfl⟩, rfl, rfl⟩
    exact isLink
  · exact fun isLink => ⟨_, ⟨isLink, rfl⟩, rfl, rfl⟩

/-- The rows, the edges and the blocks of a store are still there. -/
structure KeepsChanges (s t : Store Data) : Prop where
  rows : ∀ row ∈ s.structuralBlobs, row ∈ t.structuralBlobs
  edges : ∀ edge ∈ changeDeps s, edge ∈ changeDeps t
  blobRow : ∀ hash blob, s.blobRow hash = some blob → 0 ≤ blob.size →
    t.blobRow hash = some blob

theorem SoundChange.mono (sound : SoundChange F s row ch)
    (keeps : KeepsChanges s t) : SoundChange F t row ch where
  stored := { sound.stored with
    isRow := keeps.rows row sound.stored.isRow
    block := by
      rcases sound.stored.block with ⟨blob, found, nonneg, rest⟩
      exact ⟨blob, keeps.blobRow _ blob found nonneg, nonneg, rest⟩ }
  signed := sound.signed
  nonneg := sound.nonneg
  patch := sound.patch
  linked := fun dep isDep => keeps.edges _ (sound.linked dep isDep)
  deps := fun dep isDep => by
    rcases sound.deps dep isDep with ⟨row', isRow', rest⟩
    exact ⟨row', keeps.rows row' isRow', rest⟩

theorem ChangesSound.empty : ChangesSound F (Store.empty : Store Data) where
  nodup := List.Pairwise.nil
  drafts := rfl
  changes := fun _ member => nomatch member
  edges := fun _ _ member => nomatch member

/-- A step that adds neither structural blobs nor edges. -/
theorem ChangesSound.of_same (sound : ChangesSound F s)
    (structuralBlobs : t.structuralBlobs = s.structuralBlobs)
    (blobLinks : t.blobLinks = s.blobLinks) (drafts : t.drafts = s.drafts)
    (blobRow : ∀ hash blob, s.blobRow hash = some blob → 0 ≤ blob.size →
      t.blobRow hash = some blob) : ChangesSound F t := by
  have sameDeps : changeDeps t = changeDeps s := by
    rw [changeDeps, blobLinks]
    rfl
  have keeps : KeepsChanges s t :=
    ⟨by rw [structuralBlobs]; exact fun _ isRow => isRow,
      by rw [sameDeps]; exact fun _ isEdge => isEdge, blobRow⟩
  refine ⟨structuralBlobs ▸ sound.nodup, drafts.trans sound.drafts, ?_, ?_⟩
  · rw [structuralBlobs]
    intro row isRow isChange
    rcases sound.changes row isRow isChange with ⟨ch, soundChange⟩
    exact ⟨ch, soundChange.mono keeps⟩
  · rw [sameDeps]
    intro source target isEdge
    rcases sound.edges source target isEdge with ⟨row, ch, soundChange, rest⟩
    exact ⟨row, ch, soundChange.mono keeps, rest⟩

theorem ChangesSound.received (sound : ChangesSound F s) (received : Received s t) :
    ChangesSound F t :=
  sound.of_same received.same.structuralBlobs received.same.blobLinks received.drafts
    received.blobRow

theorem ChangesSound.ensured (sound : ChangesSound F s) (ensured : Ensured F s t) :
    ChangesSound F t :=
  sound.of_same ensured.structuralBlobs ensured.blobLinks ensured.grows.drafts
    fun _ _ found _ => ensured.grows.blobRow found

theorem KeepsChanges.saved {b : StructuralBlob} (saved : Saved F hash b s t) :
    KeepsChanges s t where
  rows := fun row isRow => by
    rw [saved.structuralBlobs]
    exact List.mem_append_left _ isRow
  edges := fun edge isEdge =>
    mem_changeDeps.mpr ((saved.blobLinks _).mpr (.inl (mem_changeDeps.mp isEdge)))
  blobRow := fun _ _ found _ => saved.grows.blobRow found

/-- Storing a structural blob: a change must be sound and have all new edges. -/
theorem ChangesSound.saved {b : StructuralBlob} (sound : ChangesSound F s)
    (saved : Saved F hash b s t)
    (change : b.type = "Change" →
      ∃ ch, SoundChange F t (Store.structuralRow hash b) ch)
    (edges : ∀ dep, ("change/dep", dep) ∈ b.blobLinks →
      ∃ ch, SoundChange F t (Store.structuralRow hash b) ch ∧ dep ∈ ch.deps) :
    ChangesSound F t where
  nodup := by
    rw [saved.structuralBlobs, List.pairwise_append]
    refine ⟨sound.nodup, List.pairwise_singleton .., fun row isRow new isNew => ?_⟩
    cases List.mem_singleton.mp isNew
    exact saved.fresh row isRow
  drafts := saved.grows.drafts.trans sound.drafts
  changes := by
    rw [saved.structuralBlobs]
    intro row isRow isChange
    rcases List.mem_append.mp isRow with old | new
    · rcases sound.changes row old isChange with ⟨ch, soundChange⟩
      exact ⟨ch, soundChange.mono (.saved saved)⟩
    · cases List.mem_singleton.mp new
      exact change isChange
  edges := fun source target isEdge => by
    rcases (saved.blobLinks _).mp (mem_changeDeps.mp isEdge) with old | new
    · rcases sound.edges source target (mem_changeDeps.mpr old) with
        ⟨row, ch, soundChange, rest⟩
      exact ⟨row, ch, soundChange.mono (.saved saved), rest⟩
    · rcases List.mem_map.mp new with ⟨⟨type, dep⟩, isLink, same⟩
      cases same
      rcases edges dep isLink with ⟨ch, soundChange, isDep⟩
      exact ⟨_, ch, soundChange, rfl, dep, isDep, rfl⟩

/-- What a change must satisfy to be loaded after its dependencies. -/
structure Loadable (F : Formats Data) (s : Store Data) (c : String) (v : Change) :
    Prop where
  signed : v.signer ≠ []
  nonneg : 0 ≤ v.hlcTime
  patch : ∃ ws, writes v.patch = .ok ws
  /-- A row that is there for the blob was made for a CID of a change. -/
  placeholder : ∀ row, s.blobRow (F.cidHash c) = some row → row.codec = dagCbor
  deps : ∀ dep ∈ v.deps, DependsOn F s (some v.entity) v.hlcTime dep

/-- A change that arrives can be loaded. -/
def RespectsLoading (F : Formats Data) (s : Store Data) (arrival : Arrival Data) :
    Prop :=
  ∀ s₁ v, Arrives F s arrival s₁ (.change v) → Loadable F s arrival.c v

theorem decodeChange_of_decodeBlob {data : Data}
    (decoded : F.decodeBlob dagCbor data = .ok (.change v)) :
    F.decodeChange data = .ok v := by
  rw [Formats.decodeBlob, if_neg (by decide), if_pos rfl] at decoded
  rcases except_bind_eq_ok.mp decoded with ⟨type, -, decoded⟩
  split at decoded
  · cases kd : F.decodeKeyDelegation data <;> simp [kd, Except.map] at decoded
  · split at decoded
    · cases isChange : F.decodeChange data <;>
        simp [isChange, Except.map] at decoded
      rw [decoded]
    · split at decoded
      · cases cm : F.decodeComment data <;> simp [cm, Except.map] at decoded
      · cases decoded

/-- The blob of a loadable change is found under its CID. -/
theorem Arrives.block (arrives : Arrives F s arrival s₁ (.change v))
    (loadable : Loadable F s arrival.c v) :
    ∃ blob, s₁.blobRow (F.cidHash arrival.c) = some blob ∧ 0 ≤ blob.size ∧
      blob.codec = dagCbor ∧ Holds F blob v := by
  have isCbor : F.cidCodec arrival.c = dagCbor := by
    have indexable := isIndexable_of_decodeBlob arrives.decoded
    rw [isIndexable, Bool.or_eq_true, beq_iff_eq, beq_iff_eq] at indexable
    rcases indexable with isCbor | isPb
    · exact isCbor
    · have decoded := arrives.decoded
      rw [isPb, Formats.decodeBlob, if_pos rfl] at decoded
      cases nodes : F.decodePBNode arrival.data <;>
        simp [nodes, Except.map] at decoded
  rcases (putBlock_of_returns arrives.stored).new rfl with
    ⟨blob, found, isData, isSize, codec⟩
  have decoded : F.decodeBlob dagCbor arrival.data = .ok (.change v) := by
    apply decodeBlob_dagCbor arrives.decoded
    intro links isNode
    cases isNode
  refine ⟨blob, found, by rw [isSize]; exact Int.natCast_nonneg _, ?_, arrival.data,
    isData, decodeChange_of_decodeBlob decoded⟩
  rcases codec with same | ⟨old, isOld, -, same⟩
  · rw [same, isCbor]
  · rw [same, loadable.placeholder old isOld]

/-- Changes are linked to their dependencies by the edges of this type only. -/
theorem changeLinks :
    EntityLinks F s v author (· ≠ "change/dep") (fun _ => True) where
  doc := fun _ => ⟨append_ne_of_hasPrefix (by decide), fun _ _ _ => trivial⟩
  content := ⟨by decide, fun _ _ _ => trivial⟩
  avatar := by decide
  rootDocument := fun _ => trivial
  creator := fun _ _ => trivial
  member := fun _ _ _ _ => trivial

theorem DependsOn.mono {resource : Option String} {time : Int} {dep : String}
    (depends : DependsOn F s resource time dep)
    (rows : ∀ row ∈ s.structuralBlobs, row ∈ t.structuralBlobs) :
    DependsOn F t resource time dep := by
  rcases depends with ⟨row, isRow, rest⟩
  exact ⟨row, rows row isRow, rest⟩

/-- A change is linked to its dependencies by edges, and to nothing else. -/
theorem IndexedChange.mem_blobLinks_dep {dep : String}
    (indexed : IndexedChange F order s c v author sb s₁ t) :
    ("change/dep", dep) ∈ sb.blobLinks ↔ dep ∈ v.deps := by
  rcases entityIndexed_of_returns changeLinks indexed.entity with ⟨-, extended, -⟩
  rcases extended.blobLinks with ⟨added, links_eq, others⟩
  rw [links_eq, linkedBlob]
  simp only [List.mem_append, List.mem_map, List.mem_singleton, Prod.mk.injEq,
    true_and, exists_eq_right]
  constructor
  · rintro ((isDep | ⟨isAuth, -⟩) | isAdded)
    · exact isDep
    · exact absurd isAuth (by decide)
    · exact absurd rfl (others _ isAdded)
  · exact fun isDep => .inl (.inl isDep)

theorem ChangesSound.indexedChange (sound : ChangesSound F s)
    (indexed : IndexedChange F order s c v author sb s₁ t)
    (signed : v.signer ≠ []) (nonneg : 0 ≤ v.hlcTime)
    (patch : ∃ ws, writes v.patch = .ok ws)
    (deps : ∀ dep ∈ v.deps, DependsOn F s (some v.entity) v.hlcTime dep)
    (block : ∃ blob, s.blobRow (F.cidHash c) = some blob ∧ 0 ≤ blob.size ∧
      blob.codec = dagCbor ∧ Holds F blob v) : ChangesSound F t := by
  rcases entityIndexed_of_returns changeLinks indexed.entity with
    ⟨ensured, extended, -⟩
  have isResource : sb.resource = v.entity := extended.resource
  have isTime : sb.time = nonzeroTime v.hlcTime := extended.time
  have keepsRows : ∀ row ∈ s.structuralBlobs, row ∈ t.structuralBlobs := by
    rw [← ensured.structuralBlobs]
    exact (KeepsChanges.saved indexed.saved).rows
  have isDep : ∀ dep, ("change/dep", dep) ∈ sb.blobLinks ↔ dep ∈ v.deps :=
    fun _ => indexed.mem_blobLinks_dep
  have soundChange : SoundChange F t (Store.structuralRow (F.cidHash c) sb) v := {
    stored := {
      isRow := by
        rw [indexed.saved.structuralBlobs]
        exact List.mem_append_right _ (List.mem_singleton_self _)
      type := extended.type
      resource := by rw [Store.structuralRow, isResource]
      ts := isTime
      block := by
        rcases block with ⟨blob, found, rest⟩
        exact ⟨blob, indexed.saved.grows.blobRow (ensured.grows.blobRow found),
          rest⟩ }
    signed := signed
    nonneg := nonneg
    patch := patch
    linked := fun dep member => mem_changeDeps.mpr ((indexed.saved.blobLinks _).mpr
      (.inr (List.mem_map.mpr ⟨_, (isDep dep).mpr member, rfl⟩)))
    deps := fun dep member => by
      rw [Store.structuralRow, isResource]
      split
      · next isEmpty =>
          -- No change has the empty text as its resource.
          rcases deps dep member with ⟨row, isRow, isChange, isEntity, -⟩
          rcases sound.changes row isRow isChange with ⟨ch, other⟩
          rw [other.stored.resource, isEmpty] at isEntity
          split at isEntity
          · cases isEntity
          · next named => exact absurd (Option.some.inj isEntity) named
      · exact (deps dep member).mono keepsRows }
  exact (sound.ensured ensured).saved indexed.saved (fun _ => ⟨v, soundChange⟩)
    fun dep isLink => ⟨v, soundChange, (isDep dep).mp isLink⟩

/-- A blob that is no change and adds no edges between changes. -/
theorem ChangesSound.saved_other {b : StructuralBlob} (sound : ChangesSound F s)
    (saved : Saved F hash b s t) (other : b.type ≠ "Change")
    (noEdge : ∀ link ∈ b.blobLinks, link.1 ≠ "change/dep") : ChangesSound F t :=
  sound.saved saved (fun isChange => absurd isChange other)
    fun _ isLink => absurd rfl (noEdge _ isLink)

theorem pbLinkType_ne_changeDep (link : PBLink) : pbLinkType link ≠ "change/dep" := by
  rw [pbLinkType]
  split
  · split
    · decide
    · exact append_ne_of_hasPrefix (by decide)
  · decide

/-- Whatever is accepted keeps the stored changes sound. -/
theorem ChangesSound.accept (sound : ChangesSound F s)
    (respects : RespectsLoading F s arrival)
    (accepted : Hyper.accept F s arrival = some t) : ChangesSound F t := by
  rcases accept_cases accepted with received | ⟨s₁, blob, arrives, indexed⟩
  · exact sound.received received
  · have sound₁ := sound.received arrives.received
    have isIndexed := indexedBlob_of_returns indexed
    cases blob with
    | dagPB links =>
        have extended := extended_dagPBBlob links
        rcases extended.blobLinks with ⟨added, links_eq, kinds⟩
        apply sound₁.saved_other isIndexed
        · rw [extended.type]
          decide
        · rw [links_eq]
          intro link isLink
          rcases kinds link isLink with ⟨pbLink, isType⟩
          rw [isType]
          exact pbLinkType_ne_changeDep pbLink
    | keyDelegation kd =>
        have inserted : ∀ row, ChangesSound F
            (s₁.keyDelegationsInsertOrIgnore row) := by
          intro row
          rw [Store.keyDelegationsInsertOrIgnore]
          split
          · exact sound₁
          · exact sound₁.of_same rfl rfl rfl fun _ _ found _ => found
        have isDelegation : (delegationBlob F kd).type ≠ "Change" := by
          show "KeyDelegation" ≠ "Change"
          decide
        exact (inserted _).saved_other isIndexed.saved isDelegation
          fun _ isLink => absurd isLink List.not_mem_nil
    | change v =>
        rcases isIndexed with ⟨author, sb, s₂, isChange⟩
        have loadable := respects s₁ v arrives
        have sameRows := arrives.received.same.structuralBlobs
        exact sound₁.indexedChange isChange loadable.signed loadable.nonneg
          loadable.patch (fun dep isDep => (loadable.deps dep isDep).mono
            fun row isRow => sameRows ▸ isRow) (arrives.block loadable)
    | comment cm =>
        rcases isIndexed with ⟨author, sb, isComment⟩
        have extended := isComment.links (· ≠ "change/dep") (fun _ => True)
          (fun type => ⟨append_ne_of_hasPrefix (by decide),
            fun _ _ _ => trivial⟩)
        rcases extended.blobLinks with ⟨added, links_eq, kinds⟩
        apply sound₁.saved_other isComment.saved
        · rw [extended.type]
          show "Comment" ≠ "Change"
          decide
        · rw [links_eq]
          exact kinds

theorem changesSound_of_run
    (run : Reaches (accept F) (RespectsLoading F) .empty s) : ChangesSound F s :=
  run.invariant (fun _ _ _ sound respects accepted =>
    sound.accept respects accepted) .empty

end Runs

section Load

variable {F : Formats Data} {s : Store Data} {eid : String}

theorem selection_public (sound : ChangesSound F s) (eid : String) :
    Selection s eid (isPublicChange s eid) where
  changes := fun row _ selected => by
    simp only [isPublicChange, Bool.and_eq_true, beq_iff_eq] at selected
    exact selected.1
  closed := fun row _ row' _ _ _ isChange isResource => by
    simp [isPublicChange, isDraft, sound.drafts, isChange, isResource]

/-- Everything below changes of an entity is a change of the entity. -/
theorem ChangesSound.closure (sound : ChangesSound F s) {heads : List String}
    (areChanges : ∀ head ∈ heads, ∃ row ∈ s.structuralBlobs, row.blob = head ∧
      row.type = "Change" ∧ row.resource = some eid) :
    ∀ blob ∈ changesResolveHeads s heads, ∃ row ∈ s.structuralBlobs,
      row.blob = blob ∧ row.type = "Change" ∧ row.resource = some eid := by
  intro blob member
  rcases mem_closure_iff.mp member with ⟨head, isHead, path⟩
  induction path with
  | refl => exact areChanges head isHead
  | tail before isEdge induction =>
      rcases induction (mem_closure_iff.mpr ⟨head, isHead, before⟩) with
        ⟨row, isRow, isSource, -, isResource⟩
      rcases sound.target isEdge isRow isSource with
        ⟨row', isRow', isTarget, isChange, same⟩
      exact ⟨row', isRow', isTarget, isChange, same.trans isResource⟩

theorem selection_closure (sound : ChangesSound F s) {heads : List String}
    (areChanges : ∀ head ∈ heads, ∃ row ∈ s.structuralBlobs, row.blob = head ∧
      row.type = "Change" ∧ row.resource = some eid) :
    Selection s eid fun row => (changesResolveHeads s heads).contains row.blob where
  changes := fun row isRow selected => by
    rw [List.contains_iff_mem] at selected
    rcases sound.closure areChanges row.blob selected with
      ⟨row', isRow', same, isChange⟩
    rw [sound.row_eq isRow isRow' same.symm]
    exact isChange
  closed := fun row _ row' _ selected isEdge _ _ => by
    rw [List.contains_iff_mem] at selected ⊢
    exact closed_closure _ selected _ isEdge

theorem Selection.and_resource {selected : StructuralBlobRow → Bool}
    (selection : Selection s eid selected) :
    Selection s eid fun row => selected row && row.resource == some eid where
  changes := fun row isRow both =>
    selection.changes row isRow (Bool.and_eq_true_iff.mp both).1
  closed := fun row isRow row' isRow' both isEdge isChange isResource => by
    rw [Bool.and_eq_true_iff, beq_iff_eq]
    exact ⟨selection.closed row isRow row' isRow' (Bool.and_eq_true_iff.mp both).1
      isEdge isChange isResource, isResource⟩

/-- An entity can be loaded in each of the three ways. -/
structure Loads (F : Formats Data) (order : RowOrder) (s : Store Data)
    (wall : Nat → Int) (eid : String) : Prop where
  all : ∃ e, (loadEntityAll F order s wall eid).Returns e
  owner : ∃ e, (loadEntity F order s wall eid).Returns e
  heads : ∀ heads ≠ [], (∀ head ∈ heads, ∃ row ∈ s.structuralBlobs,
      row.blob = F.cidHash head ∧ row.type = "Change" ∧ row.resource = some eid) →
    ∃ e, (loadEntityFromHeads F order s wall eid heads).Returns e

theorem ChangesSound.loads (sound : ChangesSound F s) (order : RowOrder)
    {wall : Nat → Int} (inTime : InTime F s wall eid)
    (known : (s.resourceRow eid).isSome) : Loads F order s wall eid where
  all := by
    rcases Option.isSome_iff_exists.mp known with ⟨resource, isResource⟩
    rw [loadEntityAll, isResource]
    have selection := selection_public sound eid
    exact loadSelected_returns order sound (inTime.selected selection) selection
  owner := by
    rcases Option.isSome_iff_exists.mp known with ⟨resource, isResource⟩
    rw [loadEntity, isResource]
    have areChanges : ∀ head ∈ ownerChanges s eid resource.owner,
        ∃ row ∈ s.structuralBlobs, row.blob = head ∧ row.type = "Change" ∧
          row.resource = some eid := by
      intro head isHead
      rcases List.mem_map.mp isHead with ⟨row, isRow, rfl⟩
      simp only [List.mem_filter, isPublicChange, Bool.and_eq_true,
        beq_iff_eq] at isRow
      exact ⟨row, isRow.1, rfl, isRow.2.1.1.1⟩
    have selection := selection_closure sound areChanges
    exact loadSelected_returns order sound (inTime.selected selection) selection
  heads := fun heads nonempty areChanges => by
    have there : heads.all (s.hasBlobData F) = true := by
      apply List.all_eq_true.mpr
      intro head isHead
      rcases areChanges head isHead with ⟨row, isRow, isBlob, isChange, -⟩
      rcases sound.changes row isRow isChange with ⟨ch, soundChange⟩
      rcases soundChange.stored.block with ⟨blob, found, nonneg, -⟩
      rw [Store.hasBlobData, ← isBlob, found]
      simp [nonneg]
    have closed : ∀ head ∈ heads.map F.cidHash, ∃ row ∈ s.structuralBlobs,
        row.blob = head ∧ row.type = "Change" ∧ row.resource = some eid := by
      intro hash isHash
      rcases List.mem_map.mp isHash with ⟨head, isHead, rfl⟩
      exact areChanges head isHead
    have selection := (selection_closure sound closed).and_resource
    rcases loadSelected_returns order sound (inTime.selected selection) selection with
      ⟨e, returns⟩
    refine ⟨e, ?_⟩
    simp only [loadEntityFromHeads, Attempt.returns_bind, Attempt.returns_check]
    exact ⟨(), nonempty, (), by simp [there], returns⟩

/-- In a run of loadable changes every entity can be loaded, when it is time. -/
theorem accepted_changes_load
    (run : Reaches (accept F) (RespectsLoading F) .empty s) (order : RowOrder)
    {wall : Nat → Int} (known : (s.resourceRow eid).isSome)
    (inTime : InTime F s wall eid) : Loads F order s wall eid :=
  (changesSound_of_run run).loads order inTime known

/-- What is no change can be loaded. -/
theorem respectsLoading_of_not_change {arrival : Arrival Data}
    (other : ∀ v, F.decodeBlob (F.cidCodec arrival.c) arrival.data ≠
      .ok (.change v)) : RespectsLoading F s arrival :=
  fun _ v arrives => absurd arrives.decoded (other v)

end Load

/-- Rows of one time stay in their order. -/
def RowOrder.stable : RowOrder where
  sort := List.insertionSort timeLe
  perm := List.perm_insertionSort timeLe
  sorted := by
    have total : Std.Total timeLe := ⟨fun row row' => by
      rw [timeLe, timeLe]
      rcases row.ts with _ | ts <;> rcases row'.ts with _ | ts'
      · exact .inl trivial
      · exact .inl trivial
      · exact .inr trivial
      · exact le_total ts ts'⟩
    have isTrans : IsTrans StructuralBlobRow timeLe := ⟨fun row row' row'' => by
      rw [timeLe, timeLe, timeLe]
      rcases row.ts with _ | ts <;> rcases row'.ts with _ | ts' <;>
        rcases row''.ts with _ | ts'' <;> try exact fun _ _ => trivial
      · exact fun impossible => impossible.elim
      · exact fun impossible => impossible.elim
      · exact fun _ impossible => impossible
      · exact le_trans⟩
    exact List.pairwise_insertionSort timeLe

/-- The time of a stored change, when it is not the time that stands for none. -/
theorem StoredChange.time_eq {F : Formats Data} {s : Store Data}
    {row : StructuralBlobRow} {ch : Change} (stored : StoredChange F s row ch)
    {ts : Int} (isTime : row.ts = some ts) : ch.hlcTime = ts := by
  have stores := stored.ts.symm.trans isTime
  rw [nonzeroTime] at stores
  split at stores
  · cases stores
  · exact Option.some.inj stores

/-- A dependency that is found among the rows. -/
theorem dependsOn_of_any {F : Formats Data} {s : Store Data} {eid dep : String} {time : Int}
    (found : s.structuralBlobs.any (fun row => row.type == "Change" &&
      row.resource == some eid && dep == F.newCidV1 dagCbor row.blob &&
        row.ts.any (· < time)) = true) : DependsOn F s (some eid) time dep := by
  rcases List.any_eq_true.mp found with ⟨row, isRow, isDep⟩
  simp only [Bool.and_eq_true, beq_iff_eq, Option.any_eq_true, decide_eq_true_eq] at isDep
  rcases isDep with ⟨⟨⟨isChange, isResource⟩, isBlob⟩, earlier⟩
  exact ⟨row, isRow, isChange, isResource, isBlob, earlier⟩

/-- The changes of the sample group can be loaded: its delegations are no changes. -/
theorem respectsLoading_devices : AllPermitted (accept (sampleFormats sampleSha256))
    (RespectsLoading (sampleFormats sampleSha256)) .empty deviceArrivals := by
  apply allPermitted_of_forall
  intro arrival isDevice state
  apply respectsLoading_of_not_change
  rcases List.mem_pair.mp isDevice with rfl | rfl <;> nofun

/-- The creation of the group has no dependencies. -/
theorem respectsLoading_create :
    RespectsLoading (sampleFormats sampleSha256) deviceStore createArrival := by
  intro _ v arrives
  cases arrives.decoded
  exact ⟨by decide, by decide, ⟨_, rfl⟩, by decide +kernel, nofun⟩

/-- The change of the members depends on the creation. -/
theorem respectsLoading_member :
    RespectsLoading (sampleFormats sampleSha256) groupStore memberArrival := by
  intro _ v arrives
  cases arrives.decoded
  refine ⟨by decide, by decide, ⟨_, rfl⟩, by decide +kernel, ?_⟩
  intro dep isDep
  rcases List.mem_singleton.mp isDep with rfl
  exact dependsOn_of_any (by decide +kernel)

/-- The change of the title depends on that of the members. -/
theorem respectsLoading_title :
    RespectsLoading (sampleFormats sampleSha256) memberStore titleArrival := by
  intro _ v arrives
  cases arrives.decoded
  refine ⟨by decide, by decide, ⟨_, rfl⟩, by decide +kernel, ?_⟩
  intro dep isDep
  rcases List.mem_singleton.mp isDep with rfl
  exact dependsOn_of_any (by decide +kernel)

theorem accepted_changes_load_titleArrival :
    ∃ s t u v, sampleRun deviceArrivals = some s ∧
      accept (sampleFormats sampleSha256) s createArrival = some t ∧
      accept (sampleFormats sampleSha256) t memberArrival = some u ∧
      accept (sampleFormats sampleSha256) u titleArrival = some v ∧
      Loads (sampleFormats sampleSha256) .stable v (fun _ => 1700000003000000)
        sampleGroup := by
  have run := reaches_titleStore
    (reaches_groupStore respectsLoading_devices respectsLoading_create)
    respectsLoading_member respectsLoading_title
  refine ⟨_, _, _, _, sampleRun_deviceArrivals, accept_createArrival,
    memberArrivalResult.property, titleArrivalResult.property,
    accepted_changes_load run _ (by decide +kernel) ?_⟩
  intro n row ch stored isResource
  have times : ∀ row ∈ titleStore.structuralBlobs, row.resource = some sampleGroup →
      row.ts = some 1700000001000000 ∨ row.ts = some 1700000002000000 ∨
        row.ts = some 1700000003000000 := by
    decide +kernel
  rcases times row stored.isRow isResource with isTime | isTime | isTime
  · rw [stored.time_eq isTime]
    exact ⟨_, rfl⟩
  · rw [stored.time_eq isTime]
    exact ⟨_, rfl⟩
  · rw [stored.time_eq isTime]
    exact ⟨_, rfl⟩

/-- A change with a dependency that is no change is stored and never loaded. -/
theorem stored_change_never_loads :
    ∃ s eid, Reaches (accept (sampleFormats sampleSha256)) (fun _ _ => True) .empty s ∧
      (s.resourceRow eid).isSome ∧
      InTime (sampleFormats sampleSha256) s (fun _ => 1700000002000000) eid ∧
      ¬ Loads (sampleFormats sampleSha256) .stable s (fun _ => 1700000002000000)
        eid := by
  refine ⟨_, "hm://d/ThnwfhnyChYhvWiv7CLe2B", reaches_get _ squatArrival_accepted,
    by decide +kernel, ?_, fun loads => ?_⟩
  · intro n row ch stored isResource
    have times : ∀ row ∈ ((sampleRun (deviceArrivals ++ [squatArrival])).get
        squatArrival_accepted).structuralBlobs,
        row.resource = some "hm://d/ThnwfhnyChYhvWiv7CLe2B" →
          row.ts = some 1700000002000000 := by decide +kernel
    rw [stored.time_eq (times row stored.isRow isResource)]
    exact ⟨_, rfl⟩
  · rcases loads.all with ⟨e, returns⟩
    exact Attempt.not_returns_of_fails (by decide +kernel) e returns

end Mintter.Hyper
