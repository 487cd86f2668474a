import Mathlib.Logic.Function.Basic
import Mathlib.Data.List.Infix
import Mathlib.Tactic.Common

/-!
# Maps inside of maps

Maps are stored at addresses, and a value of a map is a leaf or refers to a map again.  A
reference may be nil.

Two references to one map would let a change show up in a second place.  The maps below a
reference are nested when each of them stands at one path only; then a change below one path
leaves alone what is at the other paths (`ChangedAt.under`).
-/

namespace Mintter.Foundation

/-- What is stored under a key: a leaf or a reference to a map, which may be nil. -/
inductive MapValue (Leaf : Type) where
  | leaf (leaf : Leaf)
  | map (reference : Option Nat)
deriving DecidableEq

/-- The maps of a program, by their addresses. -/
abbrev MapHeap (Key Leaf : Type) := List (Key → Option (MapValue Leaf))

variable {Key Leaf : Type} [DecidableEq Key]

namespace MapHeap

/-- A nil map has no keys. -/
def lookup (heap : MapHeap Key Leaf) (v : Option Nat) (key : Key) : Option (MapValue Leaf) :=
  v.bind fun address => heap[address]?.bind fun map => map key

/-- Store a value under a key of one map, or remove the key. -/
def write (heap : MapHeap Key Leaf) (address : Nat) (key : Key)
    (value : Option (MapValue Leaf)) : MapHeap Key Leaf :=
  heap.modify address (Function.update · key value)

/-- A new map, which is empty. -/
def alloc (heap : MapHeap Key Leaf) : MapHeap Key Leaf := heap ++ [fun _ => none]

/-- What is at a path. -/
def valueAt (heap : MapHeap Key Leaf) (v : Option Nat) : List Key → Option (MapValue Leaf)
  | [] => some (.map v)
  | key :: rest =>
      match heap.lookup v key with
      | some (.map w) => valueAt heap w rest
      | some (.leaf leaf) => if rest = [] then some (.leaf leaf) else none
      | none => none

/-- The path leads to the map at the address. -/
def LeadsTo (heap : MapHeap Key Leaf) (v : Option Nat) : List Key → Nat → Prop
  | [], address => v = some address
  | key :: rest, address => ∃ w, heap.lookup v key = some (.map w) ∧ LeadsTo heap w rest address

/-- Each map stands at one path only. -/
structure Nested (heap : MapHeap Key Leaf) (v : Option Nat) : Prop where
  allocated : ∀ path address, heap.LeadsTo v path address → address < heap.length
  once : ∀ path path' address,
    heap.LeadsTo v path address → heap.LeadsTo v path' address → path = path'

omit [DecidableEq Key] in
theorem valueAt_singleton (heap : MapHeap Key Leaf) (v : Option Nat) (key : Key) :
    heap.valueAt v [key] = heap.lookup v key := by
  rw [valueAt]
  cases heap.lookup v key with
  | none => rfl
  | some value =>
      cases value with
      | leaf leaf => exact if_pos rfl
      | map w => rfl

/-- What was written is read. -/
theorem lookup_write_self (heap : MapHeap Key Leaf) {address : Nat}
    (inside : address < heap.length) (key : Key) (value : Option (MapValue Leaf)) :
    (heap.write address key value).lookup (some address) key = value := by
  rw [lookup, write, Option.bind_some, List.getElem?_modify, List.getElem?_eq_getElem inside]
  simp

/-- Other keys are read as before. -/
theorem lookup_write_key (heap : MapHeap Key Leaf) (address : Nat) {key other : Key}
    (differ : other ≠ key) (value : Option (MapValue Leaf)) (v : Option Nat) :
    (heap.write address key value).lookup v other = heap.lookup v other := by
  cases v with
  | none => rfl
  | some b =>
      rw [lookup, lookup, write, Option.bind_some, Option.bind_some, List.getElem?_modify]
      cases heap[b]? with
      | none => rfl
      | some map =>
          by_cases same : address = b
          · simp [same, differ]
          · simp [same]

/-- Other maps are read as before. -/
theorem lookup_write_ne (heap : MapHeap Key Leaf) {address b : Nat} (differ : b ≠ address)
    (key : Key) (value : Option (MapValue Leaf)) (other : Key) :
    (heap.write address key value).lookup (some b) other = heap.lookup (some b) other := by
  rw [lookup, lookup, write, Option.bind_some, Option.bind_some,
    List.getElem?_modify_ne _ _ (Ne.symm differ)]

/-- Clearing a key that is not there changes nothing. -/
theorem write_absent {heap : MapHeap Key Leaf} {address : Nat} {key : Key}
    (absent : heap.lookup (some address) key = none) : heap.write address key none = heap := by
  apply List.ext_getElem?
  intro b
  rw [write, List.getElem?_modify]
  cases stored : heap[b]? with
  | none => rfl
  | some map =>
      by_cases same : address = b
      · subst same
        rw [lookup, Option.bind_some, stored, Option.bind_some] at absent
        change some (if address = address then Function.update map key none else map) = some map
        rw [if_pos rfl, ← absent, Function.update_eq_self]
      · simp [same]

omit [DecidableEq Key] in
theorem lookup_alloc (heap : MapHeap Key Leaf) {address : Nat} (inside : address < heap.length)
    (key : Key) : heap.alloc.lookup (some address) key = heap.lookup (some address) key := by
  rw [lookup, lookup, alloc, Option.bind_some, Option.bind_some,
    List.getElem?_append_left inside]

omit [DecidableEq Key] in
/-- A new map is empty. -/
theorem lookup_alloc_new (heap : MapHeap Key Leaf) (key : Key) :
    heap.alloc.lookup (some heap.length) key = none := by
  rw [lookup, alloc, Option.bind_some, List.getElem?_concat_length]
  rfl

@[simp]
theorem length_write (heap : MapHeap Key Leaf) (address : Nat) (key : Key)
    (value : Option (MapValue Leaf)) : (heap.write address key value).length = heap.length :=
  List.length_modify _ _ _

omit [DecidableEq Key] in
@[simp]
theorem length_alloc (heap : MapHeap Key Leaf) : heap.alloc.length = heap.length + 1 := by
  simp [alloc]

/-! ## Nested maps -/

omit [DecidableEq Key] in
/-- The maps below a nested map are nested. -/
theorem Nested.child {heap : MapHeap Key Leaf} {v w : Option Nat} {key : Key}
    (nested : Nested heap v) (found : heap.lookup v key = some (.map w)) : Nested heap w where
  allocated path address leads := nested.allocated (key :: path) address ⟨w, found, leads⟩
  once _ _ address leads leads' :=
    (List.cons.inj (nested.once _ _ address ⟨w, found, leads⟩ ⟨w, found, leads'⟩)).2

omit [DecidableEq Key] in
/-- A map is not below itself. -/
theorem Nested.not_below {heap : MapHeap Key Leaf} {address : Nat} {w : Option Nat} {key : Key}
    (nested : Nested heap (some address))
    (found : heap.lookup (some address) key = some (.map w)) (path : List Key) :
    ¬ heap.LeadsTo w path address := by
  intro leads
  have same := nested.once (key :: path) [] address ⟨w, found, leads⟩ rfl
  exact absurd same (List.cons_ne_nil key path)

omit [DecidableEq Key] in
/-- The maps below two keys are apart. -/
theorem Nested.apart {heap : MapHeap Key Leaf} {v w w' : Option Nat} {key key' : Key}
    (nested : Nested heap v) (differ : key' ≠ key) (found : heap.lookup v key = some (.map w))
    (found' : heap.lookup v key' = some (.map w')) {path' : List Key} {address : Nat}
    (leads : heap.LeadsTo w' path' address) (path : List Key) :
    ¬ heap.LeadsTo w path address := by
  intro other
  have same := nested.once (key' :: path') (key :: path) address ⟨w', found', leads⟩
    ⟨w, found, other⟩
  exact differ (List.cons.inj same).1

/-- The maps below a reference are the same in both heaps. -/
def Agree (heap heap' : MapHeap Key Leaf) (v : Option Nat) : Prop :=
  ∀ path address, heap.LeadsTo v path address →
    ∀ key, heap'.lookup (some address) key = heap.lookup (some address) key

omit [DecidableEq Key] in
theorem Agree.lookup_eq {heap heap' : MapHeap Key Leaf} {v : Option Nat}
    (agree : Agree heap heap' v) (key : Key) : heap'.lookup v key = heap.lookup v key := by
  cases v with
  | none => rfl
  | some address => exact agree [] address rfl key

omit [DecidableEq Key] in
theorem Agree.child {heap heap' : MapHeap Key Leaf} {v w : Option Nat} {key : Key}
    (agree : Agree heap heap' v) (found : heap.lookup v key = some (.map w)) :
    Agree heap heap' w :=
  fun path address leads => agree (key :: path) address ⟨w, found, leads⟩

omit [DecidableEq Key] in
/-- Below a reference on which two heaps agree the same values are read. -/
theorem Agree.valueAt_eq {heap heap' : MapHeap Key Leaf} {v : Option Nat}
    (agree : Agree heap heap' v) (path : List Key) :
    heap'.valueAt v path = heap.valueAt v path := by
  induction path generalizing v with
  | nil => rfl
  | cons key rest induction =>
      rw [valueAt, valueAt, agree.lookup_eq key]
      cases found : heap.lookup v key with
      | none => rfl
      | some value =>
          cases value with
          | leaf leaf => rfl
          | map w => exact induction (agree.child found)

omit [DecidableEq Key] in
/-- Below a reference on which two heaps agree the same maps are reached. -/
theorem Agree.leadsTo_iff {heap heap' : MapHeap Key Leaf} {v : Option Nat}
    (agree : Agree heap heap' v) (path : List Key) (address : Nat) :
    heap'.LeadsTo v path address ↔ heap.LeadsTo v path address := by
  induction path generalizing v with
  | nil => exact Iff.rfl
  | cons key rest induction =>
      rw [LeadsTo, LeadsTo]
      apply exists_congr
      intro w
      rw [agree.lookup_eq key]
      apply and_congr_right
      intro found
      exact induction (agree.child found)

/-! ## Changes at a path -/

/-- The heap has been changed at a path below a reference, and nowhere else. -/
structure ChangedAt (heap : MapHeap Key Leaf) (v : Option Nat) (path : List Key)
    (heap' : MapHeap Key Leaf) : Prop where
  beside : ∀ other, ¬ other <+: path → ¬ path <+: other →
    heap'.valueAt v other = heap.valueAt v other
  outside : ∀ address, address < heap.length → (∀ p, ¬ heap.LeadsTo v p address) →
    ∀ key, heap'.lookup (some address) key = heap.lookup (some address) key

omit [DecidableEq Key] in
theorem ChangedAt.refl (heap : MapHeap Key Leaf) (v : Option Nat) (path : List Key) :
    ChangedAt heap v path heap where
  beside _ _ _ := rfl
  outside _ _ _ _ := rfl

/-- A write changes what is read at its path, and nothing beside it. -/
theorem changedAt_write {heap : MapHeap Key Leaf} {address : Nat}
    (nested : Nested heap (some address)) (key : Key) (value : Option (MapValue Leaf)) :
    ChangedAt heap (some address) [key] (heap.write address key value) where
  beside other notBefore notBehind := by
    cases other with
    | nil => exact absurd List.nil_prefix notBefore
    | cons first rest =>
        have differ : first ≠ key := by
          rintro rfl
          exact notBehind (List.prefix_append [first] rest)
        rw [valueAt, valueAt, lookup_write_key heap address differ]
        cases found : heap.lookup (some address) first with
        | none => rfl
        | some value =>
            cases value with
            | leaf leaf => rfl
            | map w =>
                apply Agree.valueAt_eq
                intro p b leads
                apply lookup_write_ne
                rintro rfl
                exact nested.not_below found p leads
  outside b _ unreached := by
    apply lookup_write_ne
    rintro rfl
    exact unreached [] rfl

omit [DecidableEq Key] in
/-- A change below a key leaves the reference at this key. -/
theorem ChangedAt.lookup_eq {heap heap' : MapHeap Key Leaf} {v w : Option Nat} {key : Key}
    {path : List Key} (changed : ChangedAt heap w path heap') (nested : Nested heap v)
    (found : heap.lookup v key = some (.map w)) (other : Key) :
    heap'.lookup v other = heap.lookup v other := by
  cases v with
  | none => rfl
  | some address =>
      exact changed.outside address (nested.allocated [] address rfl) (nested.not_below found) other

omit [DecidableEq Key] in
/-- A change below a key is a change at the longer path. -/
theorem ChangedAt.under {heap heap' : MapHeap Key Leaf} {v w : Option Nat} {key : Key}
    {path : List Key} (changed : ChangedAt heap w path heap') (nested : Nested heap v)
    (found : heap.lookup v key = some (.map w)) : ChangedAt heap v (key :: path) heap' where
  beside other notBefore notBehind := by
    cases other with
    | nil => exact absurd List.nil_prefix notBefore
    | cons first rest =>
        rw [valueAt, valueAt, changed.lookup_eq nested found]
        by_cases same : first = key
        · subst same
          rw [List.cons_prefix_cons] at notBefore notBehind
          rw [found]
          exact changed.beside rest (fun before => notBefore ⟨rfl, before⟩)
            (fun behind => notBehind ⟨rfl, behind⟩)
        · cases found' : heap.lookup v first with
          | none => rfl
          | some value =>
              cases value with
              | leaf leaf => rfl
              | map w' =>
                  apply Agree.valueAt_eq
                  intro p b leads
                  exact changed.outside b (nested.allocated (first :: p) b ⟨w', found', leads⟩)
                    (nested.apart same found found' leads)
  outside address inside unreached :=
    changed.outside address inside fun p leads => unreached (key :: p) ⟨w, found, leads⟩

/-! ## New maps -/

/-- A new map at a key. -/
def create (heap : MapHeap Key Leaf) (address : Nat) (key : Key) : MapHeap Key Leaf :=
  heap.alloc.write address key (some (.map (some heap.length)))

variable {heap : MapHeap Key Leaf} {address : Nat} {key : Key}

/-- The new map is stored under its key. -/
theorem lookup_create_self (inside : address < heap.length) :
    (heap.create address key).lookup (some address) key = some (.map (some heap.length)) := by
  apply lookup_write_self
  rw [length_alloc]
  exact Nat.lt_succ_of_lt inside

theorem lookup_create_key (inside : address < heap.length) {other : Key} (differ : other ≠ key) :
    (heap.create address key).lookup (some address) other = heap.lookup (some address) other := by
  rw [create, lookup_write_key _ _ differ, lookup_alloc heap inside]

theorem lookup_create_ne {b : Nat} (inside : b < heap.length) (differ : b ≠ address)
    (other : Key) :
    (heap.create address key).lookup (some b) other = heap.lookup (some b) other := by
  rw [create, lookup_write_ne _ differ, lookup_alloc heap inside]

theorem lookup_create_new (inside : address < heap.length) (other : Key) :
    (heap.create address key).lookup (some heap.length) other = none := by
  rw [create, lookup_write_ne _ inside.ne', lookup_alloc_new]

theorem Nested.agree_create (nested : Nested heap (some address)) {w : Option Nat} {other : Key}
    (found : heap.lookup (some address) other = some (.map w)) :
    Agree heap (heap.create address key) w := by
  intro p b leads
  apply lookup_create_ne (nested.allocated (other :: p) b ⟨w, found, leads⟩)
  rintro rfl
  exact nested.not_below found p leads

/-- After a map is created, the old maps are reached as before, and the new one by its key. -/
theorem Nested.leadsTo_create (nested : Nested heap (some address)) {path : List Key} {b : Nat}
    (leads : (heap.create address key).LeadsTo (some address) path b) :
    heap.LeadsTo (some address) path b ∨ path = [key] ∧ b = heap.length := by
  have inside := nested.allocated [] address rfl
  cases path with
  | nil => exact Or.inl leads
  | cons first rest =>
      rcases leads with ⟨w, found, leads⟩
      by_cases same : first = key
      · subst same
        rw [lookup_create_self inside, Option.some.injEq, MapValue.map.injEq] at found
        subst found
        right
        cases rest with
        | nil => exact ⟨rfl, (Option.some.inj leads).symm⟩
        | cons second rest =>
            rcases leads with ⟨w, found, _⟩
            rw [lookup_create_new inside] at found
            cases found
      · rw [lookup_create_key inside same] at found
        left
        exact ⟨w, found, ((nested.agree_create found).leadsTo_iff rest b).mp leads⟩

/-- Creating a map below a nested one keeps it nested. -/
theorem Nested.create (nested : Nested heap (some address)) :
    Nested (heap.create address key) (some address) where
  allocated path b leads := by
    rw [MapHeap.create, length_write, length_alloc]
    rcases nested.leadsTo_create leads with before | ⟨_, rfl⟩
    · exact Nat.lt_succ_of_lt (nested.allocated path b before)
    · exact Nat.lt_succ_self _
  once path path' b leads leads' := by
    rcases nested.leadsTo_create leads with before | ⟨rfl, rfl⟩
    · rcases nested.leadsTo_create leads' with before' | ⟨rfl, rfl⟩
      · exact nested.once path path' b before before'
      · exact absurd (nested.allocated path _ before) (Nat.lt_irrefl _)
    · rcases nested.leadsTo_create leads' with before' | ⟨rfl, _⟩
      · exact absurd (nested.allocated path' _ before') (Nat.lt_irrefl _)
      · rfl

/-- Where there was nothing, a new map makes no difference but at its own key. -/
theorem ChangedAt.of_create (nested : Nested heap (some address))
    (absent : heap.lookup (some address) key = none) {path : List Key}
    {heap' : MapHeap Key Leaf}
    (changed : ChangedAt (heap.create address key) (some address) (key :: path) heap') :
    ChangedAt heap (some address) (key :: path) heap' where
  beside other notBefore notBehind := by
    have inside := nested.allocated [] address rfl
    rw [changed.beside other notBefore notBehind]
    cases other with
    | nil => exact absurd List.nil_prefix notBefore
    | cons first rest =>
        rw [valueAt, valueAt]
        by_cases same : first = key
        · subst same
          rw [lookup_create_self inside, absent]
          cases rest with
          | nil => exact absurd (List.prefix_append [first] path) notBefore
          | cons second rest =>
              change valueAt _ _ _ = none
              rw [valueAt, lookup_create_new inside]
        · rw [lookup_create_key inside same]
          cases found : heap.lookup (some address) first with
          | none => rfl
          | some value =>
              cases value with
              | leaf leaf => rfl
              | map w => exact (nested.agree_create found).valueAt_eq rest
  outside b inside unreached k := by
    have differ : b ≠ address := by
      rintro rfl
      exact unreached [] rfl
    rw [changed.outside b, lookup_create_ne inside differ]
    · rw [MapHeap.create, length_write, length_alloc]
      exact Nat.lt_succ_of_lt inside
    · intro p leads
      rcases nested.leadsTo_create leads with before | ⟨_, rfl⟩
      · exact unreached p before
      · exact absurd inside (Nat.lt_irrefl _)

end MapHeap

end Mintter.Foundation
