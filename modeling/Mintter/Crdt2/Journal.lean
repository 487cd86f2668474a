import Mintter.Crdt2.Merging

/-!
# What a sequence of calls leaves at a path

A map is written by `Set` and by `ApplyPatch`.  An entry stays until a later call writes
one with its path, time and origin.  What stands at a path after a sequence of calls is
what the map has there: for paths of at most three keys always, and for longer ones when
the patches do not write into each other's paths.
-/

namespace Mintter.Crdt2

open Mintter.Foundation
open Relation

/-- A call that writes to a map. -/
inductive MapCall where
  | set (time : Int) (origin : String) (path : List String) (value : Value)
  | applyPatch (order : FieldOrder) (time : Int) (origin : String) (patch : Object)

namespace Map

/-- The map that holds the array of one more path. -/
def hold (m : Map) (path : List String) : Map := { m with arrays := m.arrays ++ [path] }

/-- Set a value at a path, which is an array of the caller. -/
def set (m : Map) (time : Int) (origin : String) (path : List String) (value : Value) : Map :=
  (m.hold path).setNode time origin ⟨m.arrays.length, path.length⟩ .primitive value

/-- Perform a call. -/
def perform (m : Map) : MapCall → Outcome Map
  | .set time origin path value => pure (m.set time origin path value)
  | .applyPatch order time origin patch => m.applyPatchIn order time origin patch

/-- The map after the calls. -/
def performCalls (m : Map) (calls : List MapCall) : Outcome Map := calls.foldlM perform m

end Map

namespace MapCall

/-- The call writes an entry. -/
def WritesEntry (e : Entry) : MapCall → Prop
  | .set time origin path value => e = ⟨path, time, origin, .primitive, value⟩
  | .applyPatch _ time origin patch => ∃ w, Writes patch w ∧ e = w.entry time origin

/-- The keys of the objects of a patch are different. -/
def Decoded : MapCall → Prop
  | .set .. => True
  | .applyPatch _ _ _ patch => Crdt2.Decoded patch

/-- The fields of a patch do not share arrays. -/
def Separate : MapCall → Prop
  | .set .. => True
  | .applyPatch _ _ _ patch => Crdt2.Separate patch

end MapCall

/-- One of the calls writes the entry. -/
def Written (calls : List MapCall) (e : Entry) : Prop := ∃ call ∈ calls, call.WritesEntry e

/-- A call writes the entry, and no later one writes its key. -/
def Stands (calls : List MapCall) (e : Entry) : Prop :=
  ∃ before call after, calls = before ++ call :: after ∧ call.WritesEntry e ∧
    ∀ later ∈ after, ∀ e', later.WritesEntry e' → e'.key ≠ e.key

/-! ## The journal -/

section Journal

variable {calls : List MapCall} {call : MapCall} {e : Entry}

/-- What stands was written. -/
theorem Stands.written (stands : Stands calls e) : Written calls e := by
  rcases stands with ⟨before, call, after, rfl, writes, -⟩
  exact ⟨call, by simp, writes⟩

theorem not_stands_nil : ¬ Stands [] e := by
  rintro ⟨before, call, after, same, -⟩
  simp at same

/-- One more call replaces the entries with the keys it writes. -/
theorem stands_concat_iff : Stands (calls ++ [call]) e ↔
    (Stands calls e ∧ ∀ e', call.WritesEntry e' → e'.key ≠ e.key) ∨ call.WritesEntry e := by
  constructor
  · rintro ⟨before, first, after, same, writes, kept⟩
    rcases concat_eq_append_cons_iff.mp same with ⟨-, rfl, -⟩ | ⟨between, rfl, rfl⟩
    · exact .inr writes
    · simp only [List.mem_append, List.mem_singleton] at kept
      refine .inl ⟨⟨before, first, between, rfl, writes, fun later member => ?_⟩, ?_⟩
      · exact kept later (.inl member)
      · exact kept call (.inr rfl)
  · rintro (⟨⟨before, first, after, rfl, writes, kept⟩, last⟩ | writes)
    · refine ⟨before, first, after ++ [call], by simp, writes, fun later member => ?_⟩
      rcases List.mem_append.mp member with old | isLast
      · exact kept later old
      · rw [List.mem_singleton.mp isLast]
        exact last
    · exact ⟨calls, call, [], rfl, writes, nofun⟩

end Journal

/-! ## The listed writes of a patch -/

namespace Map

section Listed

variable {patch : Object} {order : FieldOrder} {pending queue : List Pending}
variable {ws ws' : List Write} {keys : List String}

/-- Listing the fields of an object adds their writes and queues the nested objects. -/
theorem foldlM_fieldWrite {fields : Object}
    (listed : fields.foldlM (fieldWrite keys) (ws, pending) = .ok (ws', queue)) :
    (∀ w, w ∈ ws' ↔ w ∈ ws ∨ FieldWrite (fields, keys) w) ∧
      queue = pending ++ nestedFields keys fields := by
  induction fields generalizing ws pending with
  | nil =>
      cases listed
      simp [FieldWrite, nestedFields]
  | cons field fields induction =>
      rw [List.foldlM_cons] at listed
      rcases bind_eq_ok.mp listed with ⟨⟨ws₁, queue₁⟩, first, rest⟩
      rw [fieldWrite] at first
      rcases bind_eq_ok.mp first with ⟨⟨valueType, value, nested⟩, stored, isFirst⟩
      rcases Prod.mk.inj (Except.ok.inj isFirst) with ⟨rfl, rfl⟩
      rcases induction rest with ⟨mem_iff, rfl⟩
      have writes : ∀ w, w ∈ {w | FieldWrite (field :: fields, keys) w} ↔
          w ∈ insert ⟨keys ++ [field.1], valueType, value⟩ {w | FieldWrite (fields, keys) w} :=
        Set.ext_iff.mp (fieldWrites_cons stored)
      constructor
      · intro w
        rw [mem_iff, List.mem_append, List.mem_singleton, or_assoc]
        exact or_congr_right (writes w).symm
      · rw [nestedFields_cons]
        cases nested <;> simp [nestedFields, stored]

/-- All writes of the pending objects and of those below them are listed. -/
theorem mem_writesLoopIn {fuel : Nat}
    (listed : writesLoopIn order fuel pending ws = .ok ws') (w : Write) :
    w ∈ ws' ↔ w ∈ ws ∨ ∃ above ∈ pending, ∃ front,
      ReflTransGen Child above front ∧ FieldWrite front w := by
  induction fuel generalizing pending ws with
  | zero =>
      cases pending with
      | nil =>
          cases listed
          simp
      | cons cur pending => cases listed
  | succ fuel induction =>
      cases pending with
      | nil =>
          cases listed
          simp
      | cons cur pending =>
          rw [writesLoopIn] at listed
          rcases bind_eq_ok.mp listed with ⟨⟨ws₁, queue⟩, fields, rest⟩
          rcases foldlM_fieldWrite fields with ⟨mem_iff, rfl⟩
          have perm := order.perm fuel cur.1
          have own : FieldWrite (order.fields fuel cur.1, cur.2) w ↔ FieldWrite cur w := by
            simp only [FieldWrite, perm.mem_iff]
          have child : ∀ next, next ∈ nestedFields cur.2 (order.fields fuel cur.1) ↔
              Child cur next := by
            intro next
            rw [mem_nestedFields]
            simp only [Child, perm.mem_iff]
          rw [induction rest, mem_iff, own, or_assoc]
          refine or_congr_right ?_
          simp only [List.mem_append, child, List.mem_cons]
          constructor
          · rintro (isOwn | ⟨above, old | isChild, front, below, writes⟩)
            · exact ⟨cur, .inl rfl, cur, .refl, isOwn⟩
            · exact ⟨above, .inr old, front, below, writes⟩
            · exact ⟨cur, .inl rfl, front, .head isChild below, writes⟩
          · rintro ⟨above, rfl | old, front, below, writes⟩
            · rcases ReflTransGen.cases_head below with rfl | ⟨next, isChild, below⟩
              · exact .inl writes
              · exact .inr ⟨next, .inr isChild, front, below, writes⟩
            · exact .inr ⟨above, .inl old, front, below, writes⟩

/-- The versions of a path after writes of which at most one is at that path. -/
theorem mem_overwrite_iff {time : Int} {origin : String} {p : List String}
    {versions : List Entry} (sorted : KeyedList.Sorted Entry.key versions)
    (one : ∀ w ∈ ws, ∀ w' ∈ ws, w.path = p → w'.path = p → w = w') :
    KeyedList.Sorted Entry.key (overwrite time origin p ws versions) ∧
      ∀ e, e ∈ overwrite time origin p ws versions ↔
        (e ∈ versions ∧ ∀ w ∈ ws, w.path = p → (w.entry time origin).key ≠ e.key) ∨
          ∃ w ∈ ws, w.path = p ∧ e = w.entry time origin := by
  induction ws using List.reverseRecOn with
  | nil => exact ⟨sorted, by simp [overwrite]⟩
  | append_singleton ws w induction =>
      rcases induction fun first member second member' =>
        one first (List.mem_append_left _ member) second (List.mem_append_left _ member') with
        ⟨sorted', mem_iff⟩
      by_cases isPath : w.path = p
      · refine ⟨by rw [overwrite_append, if_pos isPath]; exact KeyedList.sorted_set sorted' _,
          fun e => ?_⟩
        rw [overwrite_append, if_pos isPath, KeyedList.mem_set_iff sorted', mem_iff]
        simp only [List.mem_append, List.mem_singleton, or_imp, forall_and, forall_eq,
          or_and_right, exists_or, exists_eq_left, isPath, true_and, true_imp_iff]
        constructor
        · rintro (isNew | ⟨⟨old, kept⟩, differs⟩ | ⟨isMade, -⟩)
          · exact .inr (.inr isNew)
          · exact .inl ⟨old, kept, Ne.symm differs⟩
          · exact .inr (.inl isMade)
        · rintro (⟨old, kept, differs⟩ | ⟨w', member, isPath', rfl⟩ | isNew)
          · exact .inr (.inl ⟨⟨old, kept⟩, Ne.symm differs⟩)
          · have same := one w' (List.mem_append_left _ member) w (by simp) isPath' isPath
            exact .inl (congrArg (Write.entry · time origin) same)
          · exact .inl isNew
      · refine ⟨by rwa [overwrite_append, if_neg isPath], fun e => ?_⟩
        rw [overwrite_append, if_neg isPath, mem_iff]
        simp [or_imp, forall_and, or_and_right, exists_or, isPath]

end Listed

/-! ## What one call does -/

/-- The call replaces the versions of the path whose keys it writes. -/
def Leaves (p : List String) (m : Map) (call : MapCall) (m' : Map) : Prop :=
  ∀ e, e ∈ m'.versions p ↔
    (e ∈ m.versions p ∧ ∀ e', call.WritesEntry e' → e'.key ≠ e.key) ∨
      call.WritesEntry e ∧ e.path = p

section Call

variable {m m' : Map} {p path : List String} {call : MapCall} {time : Int}
variable {origin : String} {value : Value}

theorem entries_hold (fits : ∀ node ∈ m.state, node.path.Fits m.arrays)
    (path : List String) : (m.hold path).entries = m.entries := by
  refine List.map_congr_left fun node member => ?_
  rw [read, read]
  exact congrArg (Entry.mk · _ _ _ _) ((fits node member).beside path).2

theorem Sound.hold (sound : m.Sound) (path : List String) : (m.hold path).Sound where
  nil_grown := sound.nil_grown.beside path
  fits := fun node member => ((sound.fits node member).beside path).1
  ordered := by
    rw [entries_hold sound.fits]
    exact sound.ordered

theorem Exact.hold (exact : m.Exact) (path : List String) : (m.hold path).Exact where
  nil_grown := exact.nil_grown.beside path
  fits := fun node member => ((exact.fits node member).beside path).1
  sorted := by
    rw [entries_hold exact.fits]
    exact exact.sorted

/-- In an exact map the versions of every path are in order. -/
theorem Exact.sortedAt (exact : m.Exact) (p : List String) : m.SortedAt p := by
  apply List.Pairwise.imp _ exact.sorted
  exact fun less _ => less

/-- A list in which one entry is set, as far as it belongs to a path. -/
theorem mem_set_path {versions : List Entry} (sorted : KeyedList.Sorted Entry.key versions)
    (own : ∀ e ∈ versions, e.path = p) (new e : Entry) :
    e ∈ (if new.path = p then KeyedList.set Entry.key new versions else versions) ↔
      (e ∈ versions ∧ ∀ e', e' = new → e'.key ≠ e.key) ∨ e = new ∧ e.path = p := by
  rw [forall_eq]
  split_ifs with isPath
  · rw [KeyedList.mem_set_iff sorted]
    constructor
    · rintro (rfl | ⟨old, differs⟩)
      · exact .inr ⟨rfl, isPath⟩
      · exact .inl ⟨old, Ne.symm differs⟩
    · rintro (⟨old, differs⟩ | ⟨isNew, -⟩)
      · exact .inr ⟨old, Ne.symm differs⟩
      · exact .inl isNew
  · constructor
    · intro old
      refine .inl ⟨old, fun same => isPath ?_⟩
      rw [path_eq_of_key_eq same, own e old]
    · rintro (⟨old, -⟩ | ⟨rfl, named⟩)
      · exact old
      · exact absurd named isPath

/-- Setting a short path leaves what the call writes. -/
theorem Sound.perform_set (sound : m.Sound) (short : p.length ≤ 3) :
    (m.set time origin path value).Sound ∧
      Leaves p m (.set time origin path value) (m.set time origin path value) := by
  rcases Slice.fits_row m.arrays path with ⟨fits, reads⟩
  rcases (sound.hold path).setNode fits time origin .primitive value with ⟨sound', stored⟩
  refine ⟨sound', fun e => ?_⟩
  have old : (m.hold path).versions p = m.versions p := by
    rw [versions, versions, entries_hold sound.fits]
  rw [set, stored p short, old]
  change e ∈ (if Slice.contents (m.arrays ++ [path]) _ = p then KeyedList.set Entry.key
    ⟨Slice.contents (m.arrays ++ [path]) _, _, _, _, _⟩ _ else _) ↔ _
  rw [reads]
  exact mem_set_path (sound.sortedAt short).versions (fun e member => (mem_versions.mp member).2)
    ⟨path, time, origin, .primitive, value⟩ e

/-- Setting a value sets one entry. -/
theorem Exact.perform_set (exact : m.Exact) :
    (m.set time origin path value).Exact ∧
      ∀ p, Leaves p m (.set time origin path value) (m.set time origin path value) := by
  rcases Slice.fits_row m.arrays path with ⟨fits, reads⟩
  have entries_eq : (m.set time origin path value).entries =
      KeyedList.set Entry.key ⟨path, time, origin, .primitive, value⟩ m.entries := by
    rw [set, entries_setNode, entries_hold exact.fits]
    exact congrArg (fun path => KeyedList.set Entry.key ⟨path, _, _, _, _⟩ _) reads
  refine ⟨⟨exact.nil_grown.beside path, ?_, ?_⟩, fun p e => ?_⟩
  · intro node member
    rcases KeyedList.mem_set_subset member with rfl | old
    · exact fits
    · exact (exact.hold path).fits node old
  · rw [entries_eq]
    exact KeyedList.sorted_set exact.sorted _
  · rw [mem_versions, mem_versions, entries_eq, KeyedList.mem_set_iff exact.sorted]
    change _ ↔ (_ ∧ ∀ e', e' = Entry.mk path time origin .primitive value → _) ∨
      e = Entry.mk path time origin .primitive value ∧ _
    rw [forall_eq]
    constructor
    · rintro ⟨isNew | ⟨old, differs⟩, named⟩
      · exact .inr ⟨isNew, named⟩
      · exact .inl ⟨⟨old, named⟩, Ne.symm differs⟩
    · rintro (⟨⟨old, named⟩, differs⟩ | ⟨isNew, named⟩)
      · exact ⟨.inr ⟨old, Ne.symm differs⟩, named⟩
      · exact ⟨.inl isNew, named⟩

/-- A call on a map that is read up to three keys. -/
theorem Sound.perform (sound : m.Sound) (short : p.length ≤ 3) (decoded : call.Decoded)
    (performed : m.perform call = .ok m') : m'.Sound ∧ Leaves p m call m' := by
  cases call with
  | set time origin path value =>
      cases performed
      exact sound.perform_set short
  | applyPatch order time origin patch =>
      have spec := applyPatchIn_spec sound order time origin patch
      rw [Map.perform] at performed
      split at spec
      · rw [performed] at spec
        cases spec
      · next ws listed =>
          rcases spec with ⟨next, applied, sound', versions_eq⟩
          rw [performed, Except.ok.injEq] at applied
          subst applied
          have mem_ws : ∀ w, w ∈ ws ↔ Writes patch w := fun w => by
            simp [mem_writesLoopIn listed w, Writes, Reached]
          have one : ∀ w ∈ ws, ∀ w' ∈ ws, w.path = p → w'.path = p → w = w' :=
            fun w member w' member' named named' =>
              ((mem_ws w).mp member).eq_of_path_eq decoded ((mem_ws w').mp member')
                (named.trans named'.symm)
          refine ⟨sound', fun e => ?_⟩
          rw [versions_eq p short, (mem_overwrite_iff (sound.sortedAt short).versions one).2]
          simp only [mem_ws]
          constructor
          · rintro (⟨old, kept⟩ | ⟨w, writes, named, rfl⟩)
            · refine .inl ⟨old, ?_⟩
              rintro _ ⟨w, writes, rfl⟩ same
              have named := (path_eq_of_key_eq same).trans (mem_versions.mp old).2
              exact kept w writes named same
            · exact .inr ⟨⟨w, writes, rfl⟩, named⟩
          · rintro (⟨old, kept⟩ | ⟨⟨w, writes, rfl⟩, named⟩)
            · exact .inl ⟨old, fun w writes _ => kept _ ⟨w, writes, rfl⟩⟩
            · exact .inr ⟨w, writes, named, rfl⟩

/-- A separate call leaves what it writes, on every path. -/
theorem Exact.perform (exact : m.Exact) (decoded : call.Decoded) (separate : call.Separate)
    (performed : m.perform call = .ok m') : m'.Exact ∧ ∀ p, Leaves p m call m' := by
  cases call with
  | set time origin path value =>
      cases performed
      exact exact.perform_set
  | applyPatch order time origin patch =>
      rcases exact.applyPatchIn_entries order decoded separate with
        ⟨next, applied, exact', entries⟩
      rw [Map.perform, applied, Except.ok.injEq] at performed
      subst performed
      refine ⟨exact', fun p e => ?_⟩
      rw [mem_versions, mem_versions, entries]
      constructor
      · rintro ⟨⟨old, kept⟩ | writes, named⟩
        · refine .inl ⟨⟨old, named⟩, ?_⟩
          rintro _ ⟨w, writes, rfl⟩
          exact kept w writes
        · exact .inr ⟨writes, named⟩
      · rintro (⟨⟨old, named⟩, kept⟩ | ⟨writes, named⟩)
        · exact ⟨.inl ⟨old, fun w writes => kept _ ⟨w, writes, rfl⟩⟩, named⟩
        · exact ⟨.inr writes, named⟩

end Call

/-! ## What a run leaves -/

section Run

variable {m : Map} {p : List String} {calls : List MapCall}

/-- What stands at the path is what the map has there, when every call is like that. -/
theorem versions_of_performCalls {Kept : Map → Prop} {Fits : MapCall → Prop}
    (start : Kept newMap)
    (step : ∀ {m call m'}, Kept m → Fits call → m.perform call = .ok m' →
      Kept m' ∧ Leaves p m call m')
    (all : ∀ call ∈ calls, Fits call) (performed : newMap.performCalls calls = .ok m) :
    Kept m ∧ ∀ e, e ∈ m.versions p ↔ Stands calls e ∧ e.path = p := by
  induction calls using List.reverseRecOn generalizing m with
  | nil =>
      cases performed
      exact ⟨start, fun e => by simp [versions, entries, newMap, not_stands_nil]⟩
  | append_singleton calls call induction =>
      rw [performCalls, List.foldlM_append] at performed
      rcases bind_eq_ok.mp performed with ⟨between, before, last⟩
      simp only [List.foldlM_cons, List.foldlM_nil, bind_pure] at last
      rcases induction (fun other member => all other (List.mem_append_left _ member)) before
        with ⟨kept, mem_iff⟩
      rcases step kept (all call (by simp)) last with ⟨kept', leaves⟩
      refine ⟨kept', fun e => ?_⟩
      rw [leaves, mem_iff, stands_concat_iff]
      tauto

/--
The map has at a path what stands there, if the path is short or the patches do not
share arrays.
-/
theorem mem_versions_iff_stands (decoded : ∀ call ∈ calls, call.Decoded)
    (apart : p.length ≤ 3 ∨ ∀ call ∈ calls, call.Separate)
    (performed : newMap.performCalls calls = .ok m) :
    m.SortedAt p ∧ ∀ e, e ∈ m.versions p ↔ Stands calls e ∧ e.path = p := by
  rcases apart with short | separate
  · have run := versions_of_performCalls (p := p) newMap_sound
      (fun sound decoded performed => sound.perform short decoded performed) decoded performed
    exact ⟨run.1.sortedAt short, run.2⟩
  · have run := versions_of_performCalls (p := p) newMap_exact
      (fun exact fits performed =>
        (exact.perform fits.1 fits.2 performed).imp_right fun leaves => leaves p)
      (fun call member => And.intro (decoded call member) (separate call member)) performed
    exact ⟨run.1.sortedAt p, run.2⟩

end Run

end Map

end Mintter.Crdt2
