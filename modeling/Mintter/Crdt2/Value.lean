import Mathlib.Data.Rat.Defs
import Mathlib.Data.String.Basic
import Mintter.Foundation.KeyedList
import Mintter.Foundation.Outcome

/-!
# Dynamically typed values and nested objects

A patch is an open-ended object whose values are decoded from CBOR.  An object
is the list of its fields in the order of their keys, so equal objects are
equal lists.  `objectSet` and `objectDelete` change a field below nested
objects; they return the changed object where the source changes it in place.
-/

namespace Mintter.Crdt2

open Mintter.Foundation

/-- A decoded value. -/
inductive Value where
  | null
  | bool (value : Bool)
  | int (value : Int)
  | float (value : Rat)
  | string (value : String)
  | bytes (value : List UInt8)
  | link (cid : String)
  | list (items : List Value)
  | map (fields : List (String × Value))

/-- An object with its fields. -/
abbrev Object := List (String × Value)

namespace Value

mutual

/-- Equality of values by content. -/
def deepEqual : Value → Value → Bool
  | null, null => true
  | bool value, bool value' => value == value'
  | int value, int value' => value == value'
  | float value, float value' => value == value'
  | string value, string value' => value == value'
  | bytes value, bytes value' => value == value'
  | link cid, link cid' => cid == cid'
  | list items, list items' => deepEqualItems items items'
  | map fields, map fields' => deepEqualFields fields fields'
  | _, _ => false

/-- Whether two lists are deeply equal, item by item. -/
def deepEqualItems : List Value → List Value → Bool
  | [], [] => true
  | value :: items, value' :: items' =>
      deepEqual value value' && deepEqualItems items items'
  | _, _ => false

/-- Whether two objects are deeply equal, field by field. -/
def deepEqualFields : Object → Object → Bool
  | [], [] => true
  | (key, value) :: fields, (key', value') :: fields' =>
      key == key' && deepEqual value value' && deepEqualFields fields fields'
  | _, _ => false

end

mutual

/-- Every value is deeply equal to itself. -/
theorem deepEqual_refl : ∀ value : Value, deepEqual value value = true
  | null | bool _ | int _ | float _ | string _ | bytes _ | link _ => by
      simp [deepEqual]
  | list items => by simpa [deepEqual] using deepEqualItems_refl items
  | map fields => by simpa [deepEqual] using deepEqualFields_refl fields

theorem deepEqualItems_refl :
    ∀ items : List Value, deepEqualItems items items = true
  | [] => by simp [deepEqualItems]
  | value :: items => by
      simp [deepEqualItems, deepEqual_refl value, deepEqualItems_refl items]

theorem deepEqualFields_refl :
    ∀ fields : Object, deepEqualFields fields fields = true
  | [] => by simp [deepEqualFields]
  | (key, value) :: fields => by
      simp [deepEqualFields, deepEqual_refl value, deepEqualFields_refl fields]

end

mutual

/-- Deeply equal values are equal. -/
theorem eq_of_deepEqual :
    ∀ value value' : Value, deepEqual value value' = true → value = value'
  | list items, other, same => by
      cases other <;> simp [deepEqual] at same
      exact congrArg list (eq_of_deepEqualItems _ _ same)
  | map fields, other, same => by
      cases other <;> simp [deepEqual] at same
      exact congrArg map (eq_of_deepEqualFields _ _ same)
  | null, other, same | bool _, other, same | int _, other, same
  | float _, other, same | string _, other, same | bytes _, other, same
  | link _, other, same => by
      cases other <;> simp_all [deepEqual]

theorem eq_of_deepEqualItems : ∀ items items' : List Value,
    deepEqualItems items items' = true → items = items'
  | [], other, same => by cases other <;> simp_all [deepEqualItems]
  | value :: items, other, same => by
      cases other with
      | nil => simp [deepEqualItems] at same
      | cons value' items' =>
          simp only [deepEqualItems, Bool.and_eq_true] at same
          rw [eq_of_deepEqual _ _ same.1, eq_of_deepEqualItems _ _ same.2]

theorem eq_of_deepEqualFields : ∀ fields fields' : Object,
    deepEqualFields fields fields' = true → fields = fields'
  | [], other, same => by cases other <;> simp_all [deepEqualFields]
  | (key, value) :: fields, other, same => by
      cases other with
      | nil => simp [deepEqualFields] at same
      | cons field' fields' =>
          obtain ⟨key', value'⟩ := field'
          simp only [deepEqualFields, Bool.and_eq_true, beq_iff_eq] at same
          rw [same.1.1, eq_of_deepEqual _ _ same.1.2,
            eq_of_deepEqualFields _ _ same.2]

end

/-- Values are equal when their contents are. -/
theorem deepEqual_iff {value value' : Value} :
    deepEqual value value' = true ↔ value = value' :=
  ⟨eq_of_deepEqual _ _, fun same => same ▸ deepEqual_refl value⟩

instance : DecidableEq Value :=
  fun _ _ => decidable_of_iff _ deepEqual_iff

/-! ## Type assertions -/

/-- The fields of an object. -/
def asMap : Value → Option Object
  | map fields => some fields
  | _ => none

/-- The items of a list. -/
def asList : Value → Option (List Value)
  | list items => some items
  | _ => none

/-- The text. -/
def asString : Value → Option String
  | string value => some value
  | _ => none

end Value

/-- A type assertion; one that fails panics. -/
def assertType {α : Type} (view : Value → Option α) (value : Option Value) :
    Outcome α :=
  match value.bind view with
  | some result => .ok result
  | none => panicWith "interface conversion"

/-! ## Objects -/

namespace Object

/-- The value of the first field with the key. -/
def get (object : Object) (key : String) : Option Value :=
  (object.find? fun field => field.1 = key).map Prod.snd

/-- Set a field, or replace the one with its key. -/
def set (object : Object) (key : String) (value : Value) : Object :=
  KeyedList.set Prod.fst (key, value) object

/-- Delete the fields with the key. -/
def delete (object : Object) (key : String) : Object :=
  KeyedList.delete Prod.fst key object

/-- The fields are listed in the order of their keys. -/
abbrev Sorted (object : Object) : Prop :=
  KeyedList.Sorted Prod.fst object

variable {object : Object} {key other : String} {value : Value}

@[simp]
theorem get_nil (key : String) : get [] key = none := rfl

theorem get_cons (field : String × Value) (object : Object) (key : String) :
    get (field :: object) key =
      if field.1 = key then some field.2 else get object key := by
  by_cases same : field.1 = key <;> simp [get, List.find?, same]

@[simp]
theorem get_set_self : (object.set key value).get key = some value := by
  induction object with
  | nil => simp [set, KeyedList.set, get_cons]
  | cons head rest induction =>
      rw [set, KeyedList.set]
      split_ifs with less same
      · simp [get_cons]
      · simp [get_cons]
      · rw [get_cons, if_neg (Ne.symm same)]
        exact induction

theorem get_set_of_ne (differs : other ≠ key) :
    (object.set key value).get other = object.get other := by
  induction object with
  | nil => simp [set, KeyedList.set, get_cons, Ne.symm differs]
  | cons head rest induction =>
      rw [set, KeyedList.set]
      split_ifs with less same
      · simp [get_cons, Ne.symm differs]
      · rw [get_cons, get_cons, if_neg (Ne.symm differs),
          if_neg (show head.1 ≠ other from fun named =>
            differs (named.symm.trans same.symm))]
      · rw [get_cons, get_cons]
        exact if_congr Iff.rfl rfl induction

/-- After a field was set it reads as set, and the others as before. -/
theorem get_set (object : Object) (key other : String) (value : Value) :
    (object.set key value).get other =
      if other = key then some value else object.get other := by
  split_ifs with same
  · rw [same, get_set_self]
  · exact get_set_of_ne same

/-- A deleted field is gone, and the others read as before. -/
theorem get_delete (object : Object) (key other : String) :
    (object.delete key).get other =
      if other = key then none else object.get other := by
  induction object with
  | nil => simp [delete, KeyedList.delete]
  | cons head rest induction =>
      rw [delete, KeyedList.delete, List.filter_cons] at *
      by_cases same : head.1 = key
      · simp only [same, ne_eq, not_true_eq_false, decide_false,
          Bool.false_eq_true, ↓reduceIte]
        rw [induction, get_cons]
        split_ifs with named found
        · rfl
        · exact absurd (found.symm.trans same) named
        · rfl
      · simp only [ne_eq, same, not_false_eq_true, decide_true, ↓reduceIte]
        rw [get_cons, induction, get_cons]
        split_ifs with found named
        · exact absurd (found.trans named) same
        · rfl
        · rfl
        · rfl

theorem Sorted.set (sorted : object.Sorted) (key : String) (value : Value) :
    (object.set key value).Sorted :=
  KeyedList.sorted_set sorted (key, value)

theorem Sorted.delete (sorted : object.Sorted) (key : String) :
    (object.delete key).Sorted :=
  KeyedList.Sorted.filter sorted _

/-- A field of a sorted object is what `get` finds under its key. -/
theorem Sorted.mem_iff (sorted : object.Sorted) :
    (key, value) ∈ object ↔ object.get key = some value := by
  constructor
  · intro member
    have found : (object.find? fun field => field.1 = key).isSome := by
      simpa using ⟨value, member⟩
    obtain ⟨field, isFound⟩ := Option.isSome_iff_exists.mp found
    have named : field.1 = key := by
      simpa using List.find?_some isFound
    have same := sorted.key_injective (List.mem_of_find?_eq_some isFound)
      member named
    rw [get, isFound, same]
    rfl
  · intro found
    obtain ⟨field, isFound, isValue⟩ := Option.map_eq_some_iff.mp found
    have named : field.1 = key := by
      simpa using List.find?_some isFound
    rw [← named, ← isValue]
    exact List.mem_of_find?_eq_some isFound

end Object

/-! ## Nested objects -/

/-- Set a value below nested objects; missing objects are created. -/
def objectSet (v : Object) (path : List String) (value : Value) :
    Outcome Object :=
  match path with
  | [] => panicWith "index out of range"
  | [key] => .ok (v.set key value)
  | key :: rest => do
      let inner ← assertType Value.asMap
        (some ((v.get key).getD (.map [])))
      let inner ← objectSet inner rest value
      pure (v.set key (.map inner))

/-- Delete a field below nested objects. -/
def objectDelete (v : Object) (path : List String) : Outcome Object :=
  match path with
  | [] => panicWith "index out of range"
  | [key] => .ok (v.delete key)
  | key :: rest =>
      match v.get key with
      | none => .ok v
      | some found => do
          let inner ← assertType Value.asMap (some found)
          let inner ← objectDelete inner rest
          pure (v.set key (.map inner))

end Mintter.Crdt2
