import Mintter.Foundation.NestedMaps

/-!
# Objects of the colx package

An object is an open-ended map.  Its values are reached by paths of keys; the values on the way
are maps again.

A path is set, got and deleted as a lens would do it (`object_lens_laws`).  Only a nil map on the
way cannot be set.
-/

namespace Mintter.Pkg

open Foundation

/-- Values that are no maps are of any type. -/
abbrev Objects (Leaf : Type) := MapHeap String Leaf

variable {Leaf : Type}

/-- Assigning to a key of a nil map panics. -/
def assign (objects : Objects Leaf) (v : Option Nat) (key : String) (value : MapValue Leaf) :
    Option (Objects Leaf) :=
  v.map fun address => objects.write address key (some value)

/-- Deleting a key of a nil map does nothing. -/
def delete (objects : Objects Leaf) (v : Option Nat) (key : String) : Objects Leaf :=
  match v with
  | none => objects
  | some address => objects.write address key none

/-- A level that is missing is made. -/
def makeLevel (objects : Objects Leaf) (v : Option Nat) (key : String) : Option (Objects Leaf) :=
  match objects.lookup v key with
  | none => v.map fun address => objects.create address key
  | some _ => some objects

/-- Set a value at a path, making the maps on the way. -/
def objectSet (objects : Objects Leaf) (v : Option Nat) (path : List String)
    (value : MapValue Leaf) : Option (Objects Leaf) :=
  match path with
  | [] => none
  | [last] => assign objects v last value
  | key :: next :: rest =>
      (makeLevel objects v key).bind fun objects =>
        match objects.lookup v key with
        | some (.map w) => objectSet objects w (next :: rest) value
        | _ => none

/-- Delete the value at a path, if there is one. -/
def objectDelete (objects : Objects Leaf) (v : Option Nat) (path : List String) :
    Option (Objects Leaf) :=
  match path with
  | [] => none
  | [last] => some (delete objects v last)
  | key :: next :: rest =>
      match objects.lookup v key with
      | none => some objects
      | some (.map w) => objectDelete objects w (next :: rest)
      | some (.leaf _) => none

/-- The loop of `ObjectGet`; a missing value is `none` inside of the result. -/
def getLoop (objects : Objects Leaf) (v : Option Nat) (path : List String) :
    Option (Option (MapValue Leaf)) :=
  match path with
  | [] => none
  | [last] => some (objects.lookup v last)
  | key :: next :: rest =>
      match objects.lookup v key with
      | some (.map w) => getLoop objects w (next :: rest)
      | _ => some none

/-- The value at a path; a nil map has none. -/
def objectGet (objects : Objects Leaf) (v : Option Nat) (path : List String) :
    Option (Option (MapValue Leaf)) :=
  if v = none then some none else getLoop objects v path

/-! ## Paths -/

/-- The values on the way that exist are maps. -/
def MapsAlong (objects : Objects Leaf) (v : Option Nat) : List String → Prop
  | key :: next :: rest =>
      match objects.lookup v key with
      | none => True
      | some (.map w) => MapsAlong objects w (next :: rest)
      | some (.leaf _) => False
  | _ => True

/-- One of the maps on the way is nil. -/
def MeetsNil (objects : Objects Leaf) (v : Option Nat) : List String → Prop
  | key :: next :: rest =>
      v = none ∨ ∃ w, objects.lookup v key = some (.map w) ∧ MeetsNil objects w (next :: rest)
  | _ => v = none

/-- The loop reads the value at the path. -/
theorem getLoop_eq_valueAt (objects : Objects Leaf) (v : Option Nat) {path : List String}
    (nonempty : path ≠ []) : getLoop objects v path = some (objects.valueAt v path) := by
  induction path generalizing v with
  | nil => exact absurd rfl nonempty
  | cons key rest induction =>
      cases rest with
      | nil => rw [getLoop, MapHeap.valueAt_singleton]
      | cons next rest =>
          rw [getLoop, MapHeap.valueAt]
          cases objects.lookup v key with
          | none => rfl
          | some value =>
              cases value with
              | leaf leaf => rfl
              | map w => exact induction w (List.cons_ne_nil next rest)

/-- What is read is the value at the path. -/
theorem objectGet_eq_valueAt (objects : Objects Leaf) (v : Option Nat) {path : List String}
    (nonempty : path ≠ []) : objectGet objects v path = some (objects.valueAt v path) := by
  rw [objectGet]
  split_ifs with isNil
  · subst isNil
    cases path with
    | nil => exact absurd rfl nonempty
    | cons key rest => rfl
  · exact getLoop_eq_valueAt objects v nonempty

theorem mapsAlong_of_empty {objects : Objects Leaf} {v : Option Nat}
    (empty : ∀ key, objects.lookup v key = none) (path : List String) :
    MapsAlong objects v path := by
  match path with
  | [] => exact trivial
  | [_] => exact trivial
  | key :: _ :: _ =>
      rw [MapsAlong, empty key]
      exact trivial

/-- A path below an empty map meets no nil map. -/
theorem not_meetsNil_of_empty {objects : Objects Leaf} {address : Nat}
    (empty : ∀ key, objects.lookup (some address) key = none) (path : List String) :
    ¬ MeetsNil objects (some address) path := by
  match path with
  | [] => exact Option.some_ne_none address
  | [_] => exact Option.some_ne_none address
  | key :: _ :: _ =>
      rintro (isNil | ⟨w, found, _⟩)
      · cases isNil
      · rw [empty key] at found
        cases found

/-! ## Setting -/

/-- The path has been set. -/
structure HasSet (objects : Objects Leaf) (v : Option Nat) (path : List String)
    (value : MapValue Leaf) (objects' : Objects Leaf) : Prop where
  changed : objects.ChangedAt v path objects'
  found : objects'.valueAt v path = some value

/-- What was set below a nested map was set below the map around it. -/
theorem HasSet.under {objects objects' : Objects Leaf} {v w : Option Nat} {key : String}
    {path : List String} {value : MapValue Leaf} (set : HasSet objects w path value objects')
    (nested : objects.Nested v) (found : objects.lookup v key = some (.map w)) :
    HasSet objects v (key :: path) value objects' where
  changed := set.changed.under nested found
  found := by
    rw [MapHeap.valueAt, set.changed.lookup_eq nested found, found]
    exact set.found

/-- A set that meets no nil map writes its value at its path. -/
theorem objectSet_spec {objects : Objects Leaf} {v : Option Nat} {path : List String}
    (nested : objects.Nested v) (maps : MapsAlong objects v path) (nonempty : path ≠ [])
    (noNil : ¬ MeetsNil objects v path) (value : MapValue Leaf) :
    ∃ objects', objectSet objects v path value = some objects' ∧
      HasSet objects v path value objects' := by
  induction path generalizing objects v with
  | nil => exact absurd rfl nonempty
  | cons key rest induction =>
      cases v with
      | none =>
          cases rest with
          | nil => exact absurd rfl noNil
          | cons next rest => exact absurd (Or.inl rfl) noNil
      | some address =>
          have inside := nested.allocated [] address rfl
          cases rest with
          | nil =>
              exists objects.write address key (some value)
              constructor
              · rfl
              · constructor
                · exact MapHeap.changedAt_write nested key (some value)
                · rw [MapHeap.valueAt_singleton]
                  exact MapHeap.lookup_write_self objects inside key (some value)
          | cons next rest =>
              rw [objectSet, makeLevel]
              rw [MapsAlong] at maps
              cases found : objects.lookup (some address) key with
              | none =>
                  have created : (objects.create address key).lookup (some address) key = _ :=
                    MapHeap.lookup_create_self inside
                  have nestedNew : (objects.create address key).Nested (some address) :=
                    nested.create
                  have fresh : ∀ k,
                      (objects.create address key).lookup (some objects.length) k = none :=
                    MapHeap.lookup_create_new inside
                  rcases induction (nestedNew.child created) (mapsAlong_of_empty fresh _)
                    (List.cons_ne_nil next rest) (not_meetsNil_of_empty fresh _) with
                    ⟨objects', ran, set⟩
                  have whole := set.under nestedNew created
                  exists objects'
                  constructor
                  · change (match (objects.create address key).lookup (some address) key with
                      | some (.map w) => objectSet (objects.create address key) w
                          (next :: rest) value
                      | _ => none) = _
                    rw [created]
                    exact ran
                  · exact ⟨whole.changed.of_create nested found, whole.found⟩
              | some stored =>
                  rw [found] at maps
                  cases stored with
                  | leaf leaf => exact absurd maps id
                  | map w =>
                      have noNilBelow : ¬ MeetsNil objects w (next :: rest) :=
                        fun meets => noNil (Or.inr ⟨w, found, meets⟩)
                      rcases induction (nested.child found) maps (List.cons_ne_nil next rest)
                        noNilBelow with ⟨objects', ran, set⟩
                      exists objects'
                      constructor
                      · change (match objects.lookup (some address) key with
                          | some (.map w) => objectSet objects w (next :: rest) value
                          | _ => none) = _
                        rw [found]
                        exact ran
                      · exact set.under nested found

/-- Setting panics at a nil map. -/
theorem objectSet_of_meetsNil {objects : Objects Leaf} {v : Option Nat} {path : List String}
    (meets : MeetsNil objects v path) (value : MapValue Leaf) :
    objectSet objects v path value = none := by
  induction path generalizing v with
  | nil => rfl
  | cons key rest induction =>
      cases rest with
      | nil =>
          have isNil : v = none := meets
          subst isNil
          rfl
      | cons next rest =>
          rcases meets with isNil | ⟨w, found, below⟩
          · subst isNil
            rfl
          · rw [objectSet, makeLevel, found]
            change (match objects.lookup v key with
              | some (.map w) => objectSet objects w (next :: rest) value
              | _ => none) = none
            rw [found]
            exact induction below

/-- Whenever a set returns, its value is written at its path. -/
theorem hasSet_of_objectSet {objects after : Objects Leaf} {v : Option Nat} {path : List String}
    (nested : objects.Nested v) (maps : MapsAlong objects v path) (nonempty : path ≠ [])
    {value : MapValue Leaf} (sets : objectSet objects v path value = some after) :
    HasSet objects v path value after := by
  have noNil : ¬ MeetsNil objects v path := by
    intro meets
    rw [objectSet_of_meetsNil meets] at sets
    cases sets
  rcases objectSet_spec nested maps nonempty noNil value with ⟨objects', ran, set⟩
  rw [sets, Option.some.injEq] at ran
  rwa [ran]

/-! ## Deleting -/

/-- The path has been deleted. -/
structure HasDeleted (objects : Objects Leaf) (v : Option Nat) (path : List String)
    (objects' : Objects Leaf) : Prop where
  changed : objects.ChangedAt v path objects'
  gone : objects'.valueAt v path = none
  absent : objects.valueAt v path = none → objects' = objects

/-- Where there is nothing, nothing has to be deleted. -/
theorem hasDeleted_absent {objects : Objects Leaf} {v : Option Nat} {path : List String}
    (absent : objects.valueAt v path = none) : HasDeleted objects v path objects where
  changed := MapHeap.ChangedAt.refl objects v path
  gone := absent
  absent _ := rfl

/-- What was deleted below a nested map was deleted below the map around it. -/
theorem HasDeleted.under {objects objects' : Objects Leaf} {v w : Option Nat} {key : String}
    {path : List String} (deleted : HasDeleted objects w path objects')
    (nested : objects.Nested v) (found : objects.lookup v key = some (.map w)) :
    HasDeleted objects v (key :: path) objects' where
  changed := deleted.changed.under nested found
  gone := by
    rw [MapHeap.valueAt, deleted.changed.lookup_eq nested found, found]
    exact deleted.gone
  absent nothing := by
    rw [MapHeap.valueAt, found] at nothing
    exact deleted.absent nothing

/-- A delete leaves nothing at its path. -/
theorem objectDelete_spec {objects : Objects Leaf} {v : Option Nat} {path : List String}
    (nested : objects.Nested v) (maps : MapsAlong objects v path) (nonempty : path ≠ []) :
    ∃ objects', objectDelete objects v path = some objects' ∧
      HasDeleted objects v path objects' := by
  induction path generalizing v with
  | nil => exact absurd rfl nonempty
  | cons key rest induction =>
      cases rest with
      | nil =>
          exists delete objects v key
          constructor
          · rfl
          · cases v with
            | none => exact hasDeleted_absent rfl
            | some address =>
                constructor
                · exact MapHeap.changedAt_write nested key none
                · rw [MapHeap.valueAt_singleton]
                  exact MapHeap.lookup_write_self objects (nested.allocated [] address rfl) key none
                · rw [MapHeap.valueAt_singleton]
                  exact MapHeap.write_absent
      | cons next rest =>
          rw [objectDelete]
          rw [MapsAlong] at maps
          cases found : objects.lookup v key with
          | none =>
              exists objects
              constructor
              · rfl
              · apply hasDeleted_absent
                rw [MapHeap.valueAt, found]
          | some stored =>
              rw [found] at maps
              cases stored with
              | leaf leaf => exact absurd maps id
              | map w =>
                  rcases induction (nested.child found) maps (List.cons_ne_nil next rest) with
                    ⟨objects', ran, deleted⟩
                  exact ⟨objects', ran, deleted.under nested found⟩

/-! ## The laws -/

/-- What setting, getting and deleting have to do with each other. -/
structure LensLaws (objects : Objects Leaf) (v : Option Nat) (p : List String)
    (x : MapValue Leaf) : Prop where
  set_panics_iff : objectSet objects v p x = none ↔ MeetsNil objects v p
  set_gets : ∀ after, objectSet objects v p x = some after → objectGet after v p = some (some x)
  set_leaves : ∀ after, objectSet objects v p x = some after →
    ∀ q, q ≠ [] → ¬ q <+: p → ¬ p <+: q → objectGet after v q = objectGet objects v q
  delete_returns : (objectDelete objects v p).isSome
  delete_gets : ∀ after, objectDelete objects v p = some after → objectGet after v p = some none
  delete_leaves : ∀ after, objectDelete objects v p = some after →
    ∀ q, q ≠ [] → ¬ q <+: p → ¬ p <+: q → objectGet after v q = objectGet objects v q
  delete_absent : objectGet objects v p = some none → objectDelete objects v p = some objects

/--
Get, set and delete are a lens on a tree of maps: what was set is read at its path and nothing
else changes, except that a set panics where it meets a nil map.
-/
theorem object_lens_laws (objects : Objects Leaf) (v : Option Nat) (nested : objects.Nested v)
    (p : List String) (nonempty : p ≠ []) (maps : MapsAlong objects v p) (x : MapValue Leaf) :
    LensLaws objects v p x := by
  rcases objectDelete_spec nested maps nonempty with ⟨without, deletes, deleted⟩
  constructor
  · constructor
    · intro panics
      by_contra noNil
      rcases objectSet_spec nested maps nonempty noNil x with ⟨after, sets, _⟩
      rw [panics] at sets
      cases sets
    · exact fun meets => objectSet_of_meetsNil meets x
  · intro after sets
    have set := hasSet_of_objectSet nested maps nonempty sets
    rw [objectGet_eq_valueAt after v nonempty, set.found]
  · intro after sets q qNonempty notBefore notBehind
    have set := hasSet_of_objectSet nested maps nonempty sets
    rw [objectGet_eq_valueAt after v qNonempty, objectGet_eq_valueAt objects v qNonempty,
      set.changed.beside q notBefore notBehind]
  · rw [deletes]
    rfl
  · intro after same
    rw [deletes, Option.some.injEq] at same
    subst same
    rw [objectGet_eq_valueAt without v nonempty, deleted.gone]
  · intro after same q qNonempty notBefore notBehind
    rw [deletes, Option.some.injEq] at same
    subst same
    rw [objectGet_eq_valueAt without v qNonempty, objectGet_eq_valueAt objects v qNonempty,
      deleted.changed.beside q notBefore notBehind]
  · intro absent
    rw [objectGet_eq_valueAt objects v nonempty, Option.some.injEq] at absent
    rw [deletes, deleted.absent absent]

/-! ## An object of two levels -/

/-- A map with one nested map. -/
def account : Objects Nat := MapHeap.create [fun _ => none] 0 "account"

theorem account_nested : account.Nested (some 0) := by
  apply MapHeap.Nested.create
  have onlyRoot : ∀ path address,
      MapHeap.LeadsTo ([fun _ => none] : Objects Nat) (some 0) path address →
        path = [] ∧ address = 0 := by
    intro path address leads
    cases path with
    | nil => exact ⟨rfl, (Option.some.inj leads).symm⟩
    | cons key rest =>
        rcases leads with ⟨w, found, _⟩
        cases found
  constructor
  · intro path address leads
    rw [(onlyRoot path address leads).2]
    exact Nat.one_pos
  · intro path path' address leads leads'
    rw [(onlyRoot path address leads).1, (onlyRoot path' address leads').1]

theorem account_lens_laws : LensLaws account (some 0) ["account", "name"] (.leaf 7) :=
  object_lens_laws account (some 0) account_nested ["account", "name"] (List.cons_ne_nil _ _)
    trivial (.leaf 7)

end Mintter.Pkg
