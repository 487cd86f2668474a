import Mathlib.Data.List.TakeWhile
import Mathlib.Data.Nat.Digits.Lemmas

/-!
# Base58 texts

A multibase text of bytes: a letter for the base, a `1` for each zero byte at the
start, and the digits of the number that the bytes stand for.
-/

namespace Mintter.Foundation

/-- The digits in their order. -/
def base58Alphabet : List Char :=
  "123456789ABCDEFGHJKLMNPQRSTUVWXYZabcdefghijkmnopqrstuvwxyz".toList

/-- The character of a digit. -/
def base58Char (digit : Nat) : Char := base58Alphabet.getD digit '?'

/-- The number that the bytes stand for, the most significant byte first. -/
def bytesValue (bytes : List UInt8) : Nat :=
  Nat.ofDigits 256 (bytes.reverse.map UInt8.toNat)

/-- The zero bytes at the start. -/
def leadingZeros (bytes : List UInt8) : Nat :=
  (bytes.takeWhile (· = 0)).length

/-- The characters: a one for each leading zero, then the digits of the number. -/
def base58Chars (bytes : List UInt8) : List Char :=
  List.replicate (leadingZeros bytes) '1' ++
    ((Nat.digits 58 (bytesValue bytes)).map base58Char).reverse

/-- The multibase text of the bytes. -/
def base58Text (bytes : List UInt8) : String :=
  String.ofList ('z' :: base58Chars bytes)

section Injective

/-- Different digits have different characters. -/
theorem base58Char_inj {d d' : Nat} (small : d < 58) (small' : d' < 58)
    (same : base58Char d = base58Char d') : d = d' := by
  have distinct : ∀ d < 58, ∀ d' < 58,
      base58Char d = base58Char d' → d = d' := by decide +kernel
  exact distinct d small d' small' same

theorem map_base58Char_inj {ds ds' : List Nat} (small : ∀ d ∈ ds, d < 58)
    (small' : ∀ d ∈ ds', d < 58)
    (same : ds.map base58Char = ds'.map base58Char) : ds = ds' := by
  induction ds generalizing ds' with
  | nil => exact (List.map_eq_nil_iff.mp same.symm).symm
  | cons d ds induction =>
      rcases ds' with _ | ⟨d', ds'⟩
      · cases same
      · rcases List.cons.inj same with ⟨first, rest⟩
        rw [base58Char_inj (small d (List.mem_cons_self ..))
            (small' d' (List.mem_cons_self ..)) first,
          induction (fun d member => small d (List.mem_cons_of_mem _ member))
            (fun d member => small' d (List.mem_cons_of_mem _ member)) rest]

/-- The number of `1` characters at the start is the number of zero bytes. -/
theorem takeWhile_base58Chars (bytes : List UInt8) :
    (base58Chars bytes).takeWhile (· = '1') =
      List.replicate (leadingZeros bytes) '1' := by
  rw [base58Chars, List.takeWhile_append_of_pos (by simp), List.append_right_eq_self,
    List.takeWhile_eq_nil_iff]
  intro nonempty
  by_cases zero : bytesValue bytes = 0
  · simp [zero] at nonempty
  · have last := Nat.getLast_digit_ne_zero 58 zero
    rw [List.get_eq_getElem, List.getElem_zero, List.head_reverse,
      List.getLast_map]
    simp only [decide_eq_true_eq]
    intro isOne
    apply last
    exact base58Char_inj (Nat.digits_lt_base (by decide) (List.getLast_mem _))
      (by decide) (isOne.trans (by decide : '1' = base58Char 0))

/-- The bytes after the zeros at the start. -/
def significantBytes (bytes : List UInt8) : List UInt8 :=
  bytes.dropWhile (· = 0)

/-- The leading zeros and the other bytes make up the bytes. -/
theorem zeros_append_significantBytes (bytes : List UInt8) :
    List.replicate (leadingZeros bytes) 0 ++ significantBytes bytes = bytes := by
  have zeros : bytes.takeWhile (· = 0) = List.replicate (leadingZeros bytes) 0 := by
    apply List.eq_replicate_of_mem
    intro b member
    simpa using List.mem_takeWhile_imp member
  rw [← zeros]
  exact List.takeWhile_append_dropWhile

/-- The zeros at the start do not count. -/
theorem digits_bytesValue (bytes : List UInt8) :
    Nat.digits 256 (bytesValue bytes) =
      (significantBytes bytes).reverse.map UInt8.toNat := by
  have value_eq : bytesValue bytes =
      Nat.ofDigits 256 ((significantBytes bytes).reverse.map UInt8.toNat) := by
    conv_lhs => rw [← zeros_append_significantBytes bytes]
    rw [bytesValue, List.reverse_append, List.map_append, List.reverse_replicate,
      List.map_replicate]
    exact Nat.ofDigits_append_replicate_zero _
  rw [value_eq]
  apply Nat.digits_ofDigits 256 (by decide)
  · intro digit member
    rcases List.mem_map.mp member with ⟨b, -, rfl⟩
    exact b.toNat_lt
  · intro nonempty
    rw [List.getLast_map, List.getLast_reverse]
    have first := List.head_dropWhile_not (· = (0 : UInt8)) (l := bytes)
      (by simpa [significantBytes] using nonempty)
    intro zero
    apply of_decide_eq_false first
    exact UInt8.toNat_inj.mp zero

/-- The bytes are known from their zeros at the start and their number. -/
theorem bytes_eq_of_value {bytes bytes' : List UInt8}
    (zeros : leadingZeros bytes = leadingZeros bytes')
    (value : bytesValue bytes = bytesValue bytes') : bytes = bytes' := by
  have digits := digits_bytesValue bytes
  rw [value, digits_bytesValue bytes'] at digits
  have significant := List.reverse_inj.mp
    (List.map_injective_iff.mpr (fun _ _ => UInt8.toNat_inj.mp) digits)
  rw [← zeros_append_significantBytes bytes, ← zeros_append_significantBytes bytes',
    zeros, significant]

/-- Different bytes have different texts. -/
theorem base58Text_injective : Function.Injective base58Text := by
  intro bytes bytes' same
  have chars : base58Chars bytes = base58Chars bytes' := by
    have lists := congrArg String.toList same
    rw [base58Text, base58Text, String.toList_ofList, String.toList_ofList] at lists
    exact (List.cons.inj lists).2
  have zeros : leadingZeros bytes = leadingZeros bytes' := by
    have counts := congrArg (fun cs => (List.takeWhile (· = '1') cs).length) chars
    simpa only [takeWhile_base58Chars, List.length_replicate] using counts
  apply bytes_eq_of_value zeros
  rw [base58Chars, base58Chars, zeros, List.append_cancel_left_eq,
    List.reverse_inj] at chars
  apply Nat.digits_inj_iff.mp
  exact map_base58Char_inj (fun d => Nat.digits_lt_base (by decide))
    (fun d => Nat.digits_lt_base (by decide)) chars

end Injective

end Mintter.Foundation
