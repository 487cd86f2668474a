import Mintter.Foundation.Attempt

/-!
# Principals

A principal is the type of a public key, as a variable-length integer, followed
by the bytes of the key.  The texts of principals are base58 multibase texts,
whose encoder and decoder are parameters.
-/

namespace Mintter.Hyper

open Mintter.Foundation

/-- A public key with the code of its type in front. -/
abbrev Principal := List UInt8

/-- Reading the first byte of an empty slice. -/
def emptySlice : String :=
  "runtime error: index out of range [0] with length 0"

/-- The type codes of public keys. -/
def ed25519Pub : Nat := 0xed

/-- The code of Secp256k1 keys. -/
def secp256k1Pub : Nat := 0xe7

/--
Read a variable-length integer of at most 64 bits: its value and the number of
bytes read, which is zero when bytes are missing and negative on overflow.
-/
def uvarintLoop : List UInt8 → Nat → Nat → Nat → Nat × Int
  | [], _, _, _ => (0, 0)
  | b :: rest, i, x, s =>
      if i = 10 then (0, -(i + 1))
      else if b < 0x80 then
        if i = 9 ∧ 1 < b then (0, -(i + 1)) else (x + b.toNat * 2 ^ s, i + 1)
      else uvarintLoop rest (i + 1) (x + (b.toNat - 0x80) * 2 ^ s) (s + 7)

/-- Read a number of variable length, and how many bytes it takes. -/
def uvarint (buf : List UInt8) : Nat × Int := uvarintLoop buf 0 0 0

namespace Principal

/-- The bytes as the key of a map, read through a pointer to the first byte. -/
def unsafeString (p : Principal) : Attempt Unit :=
  if p = [] then .abort emptySlice else pure ()

/-- The principal with these bytes; the key itself is not looked at. -/
def decodeBytes (sb : List UInt8) : Attempt Principal :=
  let (codec, n) := uvarint sb
  if n < 0 then
    .abort s!"runtime error: slice bounds out of range [{n}:]"
  else if codec ≠ ed25519Pub then throw "invalid principal key type"
  else pure sb

/-- What the key library says about the bytes of a key. -/
structure KeyLibrary where
  ed25519 : List UInt8 → Bool
  secp256k1 : List UInt8 → Bool

/-- Whether the principal is a public key. -/
def libp2pKey (keys : KeyLibrary) (p : Principal) : Attempt Unit :=
  let (codec, n) := uvarint p
  if codec = ed25519Pub then
    .check (keys.ed25519 (p.drop n.toNat) = false) "malformed Ed25519 key"
  else if codec = secp256k1Pub then
    .check (keys.secp256k1 (p.drop n.toNat) = false) "malformed Secp256k1 key"
  else throw s!"unsupported principal key type prefix {codec}"

section Decode

variable {p q : Principal}

@[simp]
theorem returns_unsafeString {value : Unit} :
    (unsafeString p).Returns value ↔ p ≠ [] := by
  rw [unsafeString]
  split
  · next isEmpty => simp [isEmpty]
  · next nonempty => simp [nonempty]

@[simp]
theorem quiet_unsafeString : (unsafeString p).Quiet ↔ p ≠ [] := by
  rw [unsafeString]
  split
  · next isEmpty => simp [isEmpty]
  · next nonempty => simp [nonempty]

@[simp]
theorem returns_decodeBytes :
    (decodeBytes p).Returns q ↔
      0 ≤ (uvarint p).2 ∧ (uvarint p).1 = ed25519Pub ∧ p = q := by
  simp only [decodeBytes]
  split
  · next overflows => simp [overflows]
  · next inside =>
      split
      · next other => simp [other]
      · next same => simp [not_not.mp same, not_lt.mp inside]

@[simp]
theorem quiet_decodeBytes : (decodeBytes p).Quiet ↔ 0 ≤ (uvarint p).2 := by
  simp only [decodeBytes]
  split
  · next overflows => simp [overflows]
  · next inside =>
      split <;> simp [not_lt.mp inside]

/-- A principal that was decoded is not empty. -/
theorem ne_nil_of_uvarint (isKey : (uvarint p).1 = ed25519Pub) : p ≠ [] := by
  rintro rfl
  exact absurd isKey (by decide)

@[simp]
theorem quiet_libp2pKey (keys : KeyLibrary) : (libp2pKey keys p).Quiet := by
  simp only [libp2pKey]
  split
  · exact Attempt.quiet_check ..
  · split
    · exact Attempt.quiet_check ..
    · exact Attempt.quiet_throw _

end Decode

end Principal

end Mintter.Hyper
