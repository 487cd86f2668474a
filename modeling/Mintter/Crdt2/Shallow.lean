import Mintter.Crdt2.Journal

/-!
# Reading at short paths

The entries with at most three keys in their path stand before all others, in the order of
their keys.  What is read at short paths depends on them only, so two maps with the same
versions of the short paths read the same there.
-/

namespace Mintter.Crdt2.Map

open Mintter.Foundation

/-- The entries with at most three keys in their path. -/
def shallow (m : Map) : List Entry := m.entries.filter fun e => e.path.length ≤ 3

section Shallow

variable {m m' : Map} {p : List String} {time : Int}

/-- The shallow entries are those with at most three keys. -/
theorem mem_shallow {e : Entry} : e ∈ m.shallow ↔ e ∈ m.entries ∧ e.path.length ≤ 3 := by
  simp [shallow]

/-- The shallow entries come first. -/
theorem Sound.entries_eq (sound : m.Sound) :
    m.entries = m.shallow ++ m.entries.filter fun e => !decide (e.path.length ≤ 3) := by
  apply KeyedList.eq_filter_append
  apply sound.ordered.imp
  intro first second ordered short
  have less := ordered (of_decide_eq_true short)
  exact decide_eq_true ((key_lt_length less).trans (of_decide_eq_true short))

theorem Sound.sorted_shallow (sound : m.Sound) : KeyedList.Sorted Entry.key m.shallow := by
  apply (sound.ordered.sublist List.filter_sublist).imp_of_mem
  intro first second _ isSecond ordered
  exact ordered (mem_shallow.mp isSecond).2

/-- The shallow entries are the versions of the short paths. -/
theorem shallow_eq_of_versions (sound : m.Sound) (sound' : m'.Sound)
    (same : ∀ p : List String, p.length ≤ 3 → m.versions p = m'.versions p) :
    m.shallow = m'.shallow := by
  apply sound.sorted_shallow.eq_of_mem_iff sound'.sorted_shallow
  intro e
  rw [mem_shallow, mem_shallow]
  apply and_congr_left
  intro short
  have versions : e ∈ m.versions e.path ↔ e ∈ m'.versions e.path := by
    rw [same e.path short]
  simpa [mem_versions] using versions

/-- Only shallow entries come before the pivot of a short path. -/
theorem Sound.descend_eq (sound : m.Sound) (short : p.length ≤ 3) :
    KeyedList.descend Entry.key (pivot p time) m.entries =
      KeyedList.descend Entry.key (pivot p time) m.shallow := by
  have deep : (m.entries.filter fun e => !decide (e.path.length ≤ 3)).filter
      (fun e => e.key ≤ pivot p time) = [] := by
    rw [List.filter_eq_nil_iff]
    intro e member before
    have isDeep := (List.mem_filter.mp member).2
    have group_le : e.group ≤ pathKey p := by
      rcases le_pivot_iff.mp (of_decide_eq_true before) with less | ⟨same, -⟩
      · exact less.le
      · exact same.le
    have isShort := short_of_group_le short group_le
    simp [isShort] at isDeep
  rw [KeyedList.descend, KeyedList.descend, sound.entries_eq, List.filter_append, deep,
    List.append_nil]

/-- An iteration that stops at deep entries visits the shallow ones. -/
theorem Sound.visit_ascend {σ : Type} (sound : m.Sound) {fn : σ → Entry → Outcome (σ × Bool)}
    (stop : ∀ state e, 3 < e.path.length → fn state e = .ok (state, false)) (state : σ) :
    visit fn (KeyedList.ascend Entry.key (pivot p time) m.entries) state =
      visit fn (KeyedList.ascend Entry.key (pivot p time) m.shallow) state := by
  rw [KeyedList.ascend, KeyedList.ascend, sound.entries_eq, List.filter_append]
  apply visit_append_stop
  intro state e member
  have isDeep := (List.mem_filter.mp (List.mem_filter.mp member).1).2
  apply stop
  simpa using isDeep

end Shallow

/-- The two maps cannot be told apart at short paths. -/
structure ReadsAlike (m m' : Map) : Prop where
  get : ∀ p : List String, p.length ≤ 3 → m.get p = m'.get p
  getWithOrigin : ∀ p : List String, p.length ≤ 3 → m.getWithOrigin p = m'.getWithOrigin p
  forEachListChunk : ∀ {σ : Type} (p : List String), p.length ≤ 3 →
    ∀ (fn : σ → Int → String → List Value → Outcome (σ × Bool)) (state : σ),
      m.forEachListChunk p fn state = m'.forEachListChunk p fn state
  list : ∀ p : List String, p.length ≤ 3 → m.list p = m'.list p
  keys : ∀ p : List String, p.length ≤ 2 → m.keys p = m'.keys p

section Reads

variable {m m' : Map}

theorem keyStep_deep {path keys : List String} {e : Entry} (short : path.length ≤ 2)
    (deep : 3 < e.path.length) : keyStep path keys e = .ok (keys, false) := by
  have differs : path ≠ e.path.dropLast := by
    intro same
    have length := congrArg List.length same
    rw [List.length_dropLast] at length
    omega
  rw [keyStep]
  split
  · next isEmpty =>
      rw [List.getLast?_eq_none_iff.mp isEmpty] at deep
      exact absurd deep (by decide)
  · rw [if_pos differs]
    exact rfl

/-- Maps with the same versions of the short paths read the same there. -/
theorem readsAlike_of_versions (sound : m.Sound) (sound' : m'.Sound)
    (same : ∀ p : List String, p.length ≤ 3 → m.versions p = m'.versions p) :
    ReadsAlike m m' := by
  have shallow_eq := shallow_eq_of_versions sound sound' same
  have chunks : ∀ {σ : Type} (p : List String), p.length ≤ 3 →
      ∀ (fn : σ → Int → String → List Value → Outcome (σ × Bool)) (state : σ),
        m.forEachListChunk p fn state = m'.forEachListChunk p fn state := by
    intro σ p short fn state
    have stop : ∀ state e, 3 < e.path.length → chunkStep p fn state e = .ok (state, false) :=
      fun state e deep => chunkStep_other (by rintro rfl; omega)
    rw [forEachListChunk, forEachListChunk, sound.visit_ascend stop, sound'.visit_ascend stop,
      shallow_eq]
  constructor
  · intro p short
    rw [get, get, sound.descend_eq short, sound'.descend_eq short, shallow_eq]
  · intro p short
    rw [getWithOrigin, getWithOrigin, sound.descend_eq short, sound'.descend_eq short,
      shallow_eq]
  · exact chunks
  · exact fun p short => chunks p short _ _
  · intro p short
    have stop : ∀ keys e, 3 < e.path.length → keyStep p keys e = .ok (keys, false) :=
      fun keys e deep => keyStep_deep short deep
    rw [keys, keys, sound.visit_ascend stop, sound'.visit_ascend stop, shallow_eq]

end Reads

end Mintter.Crdt2.Map
