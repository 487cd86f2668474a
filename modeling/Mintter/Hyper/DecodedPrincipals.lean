import Mintter.Hyper.SampleFormats

/-!
# Decoded principals

The prefix of a principal is a variable-length integer of unknown origin.  `DecodePrincipal`
looks at its value after it has cut the prefix off, so a prefix that overflows is cut off at a
negative index.

An accepted principal keeps its bytes, also those of a prefix that is longer than it has to be.
So its text decodes to the same principal, and both readers of the key find it behind the same
prefix.
-/

namespace Mintter.Hyper

open Mintter.Foundation

/-! ## The prefix -/

/-- The bytes at the start that do not end a variable-length integer. -/
def continuationBytes (bytes : List UInt8) : Nat :=
  (bytes.takeWhile (0x80 ≤ ·)).length

/-- The first integer has more than 64 bits: it goes on for ten bytes and there are more, or it
ends with a tenth byte of more than one bit. -/
def Overflows (bytes : List UInt8) : Prop :=
  10 ≤ continuationBytes bytes ∧ 10 < bytes.length ∨
    continuationBytes bytes = 9 ∧ ∃ b, bytes[9]? = some b ∧ 1 < b

theorem continuationBytes_cons (b : UInt8) (rest : List UInt8) :
    continuationBytes (b :: rest) = if b < 0x80 then 0 else continuationBytes rest + 1 := by
  rw [continuationBytes, List.takeWhile_cons]
  by_cases ends : b < 0x80
  · simp [ends, UInt8.not_le.mpr ends]
  · simp [ends, UInt8.not_lt.mp ends, continuationBytes]

theorem uvarintLoop_neg_iff (bytes : List UInt8) (i x s : Nat) (inside : i ≤ 10) :
    (uvarintLoop bytes i x s).2 < 0 ↔
      10 ≤ i + continuationBytes bytes ∧ 10 < i + bytes.length ∨
        i + continuationBytes bytes = 9 ∧
          ∃ b, bytes[continuationBytes bytes]? = some b ∧ 1 < b := by
  induction bytes generalizing i x s with
  | nil =>
      simp [uvarintLoop]
      omega
  | cons b rest induction =>
      rw [uvarintLoop, continuationBytes_cons, List.length_cons]
      by_cases last : i = 10
      · simp [last]
      · rw [if_neg last]
        by_cases ends : b < 0x80
        · rw [if_pos ends, if_pos ends]
          by_cases big : i = 9 ∧ 1 < b
          · simp [big]
          · simp only [if_neg big, List.getElem?_cons_zero, Option.some.injEq, exists_eq_left']
            constructor
            · intro negative
              omega
            · rintro (long | nine)
              · omega
              · exact absurd nine big
        · rw [if_neg ends, if_neg ends, induction (i + 1) _ _ (by omega),
            List.getElem?_cons_succ, Nat.add_right_comm i 1, Nat.add_right_comm i 1,
            Nat.add_assoc, Nat.add_assoc i]

theorem uvarint_neg_iff (bytes : List UInt8) : (uvarint bytes).2 < 0 ↔ Overflows bytes := by
  rw [uvarint, uvarintLoop_neg_iff bytes 0 0 0 (by omega), Overflows]
  simp only [Nat.zero_add]
  constructor
  · rintro (long | ⟨nine, last⟩)
    · exact Or.inl long
    · rw [nine] at last
      exact Or.inr ⟨nine, last⟩
  · rintro (long | ⟨nine, last⟩)
    · exact Or.inl long
    · rw [← nine] at last
      exact Or.inr ⟨nine, last⟩

/-- The integer is known from the bytes that were read. -/
theorem uvarintLoop_take {bytes : List UInt8} {i x s value : Nat} {n : Int}
    (read : uvarintLoop bytes i x s = (value, n)) (positive : 0 < n) :
    i < n ∧ n ≤ i + bytes.length ∧
      uvarintLoop (bytes.take (n.toNat - i)) i x s = (value, n) := by
  induction bytes generalizing i x s with
  | nil =>
      rw [uvarintLoop, Prod.mk.injEq] at read
      omega
  | cons b rest induction =>
      rw [uvarintLoop] at read
      split_ifs at read with last ends big
      · rw [Prod.mk.injEq] at read
        omega
      · rw [Prod.mk.injEq] at read
        omega
      · rw [Prod.mk.injEq] at read
        rcases read with ⟨rfl, rfl⟩
        have one : (((i + 1 : Nat) : Int)).toNat - i = 1 := by omega
        constructor
        · omega
        · constructor
          · rw [List.length_cons]
            omega
          · push_cast at one
            rw [one, List.take_succ_cons, List.take_zero, uvarintLoop, if_neg last, if_pos ends,
              if_neg big]
      · rcases induction read with ⟨after, bound, same⟩
        have more : n.toNat - i = (n.toNat - (i + 1)) + 1 := by omega
        constructor
        · omega
        · constructor
          · rw [List.length_cons]
            omega
          · rw [more, List.take_succ_cons, uvarintLoop, if_neg last, if_neg ends]
            exact same

theorem uvarintLoop_ne_zero {bytes : List UInt8} {i x s value : Nat} {n : Int}
    (read : uvarintLoop bytes i x s = (value, n)) (nonzero : value ≠ 0) : 0 < n := by
  induction bytes generalizing i x s with
  | nil =>
      rw [uvarintLoop, Prod.mk.injEq] at read
      omega
  | cons b rest induction =>
      rw [uvarintLoop] at read
      split_ifs at read with last ends big
      · rw [Prod.mk.injEq] at read
        omega
      · rw [Prod.mk.injEq] at read
        omega
      · rw [Prod.mk.injEq] at read
        omega
      · exact induction read

/-! ## Accepted principals -/

namespace Principal

/-- The type of the key and its bytes. -/
def explode (p : Principal) : Attempt (Nat × List UInt8) :=
  let (code, n) := uvarint p
  if n < 0 then .abort s!"runtime error: slice bounds out of range [{n}:]"
  else pure (code, p.drop n.toNat)

/-- The principal is a prefix for ed25519 and a key, and both readers of the key take it apart
there. -/
structure Split (p pre key : List UInt8) : Prop where
  whole : p = pre ++ key
  prefix_eq : uvarint pre = (ed25519Pub, (pre.length : Int))
  exploded : (explode p).Returns (ed25519Pub, key)
  libp2p : ∀ keys, libp2pKey keys p =
    .check (keys.ed25519 key = false) "malformed Ed25519 key"

theorem split_of_uvarint {p : Principal} (isKey : (uvarint p).1 = ed25519Pub) :
    ∃ pre key, Split p pre key := by
  cases read : uvarint p with
  | mk code n =>
      rw [read] at isKey
      simp only at isKey
      subst isKey
      have positive := uvarintLoop_ne_zero read (by decide)
      rcases uvarintLoop_take read positive with ⟨-, bound, same⟩
      rw [Nat.sub_zero] at same
      constructor
      constructor
      constructor
      · exact (List.take_append_drop n.toNat p).symm
      · rw [List.length_take, min_eq_left (by omega), Int.toNat_of_nonneg positive.le]
        exact same
      · rw [explode, read]
        simp only
        rw [if_neg positive.not_gt]
        exact Attempt.returns_pure.mpr rfl
      · intro keys
        rw [libp2pKey, read]
        exact if_pos rfl

end Principal

variable {Data : Type} (F : Formats Data)

/-- The principal is read again from its text, and is taken apart in one place. -/
structure Formats.Accepted (p : Principal) : Prop where
  again : (F.decodePrincipal (F.principalString p)).Returns p
  split : ∃ pre key, Principal.Split p pre key

/-- A decoding that returns an error or an accepted principal. -/
structure Formats.Decodes (decoding : Attempt Principal) : Prop where
  quiet : decoding.Quiet
  accepted : ∀ p, decoding.Returns p → F.Accepted p

/-- The texts of bytes are base58 multibase texts. -/
structure Formats.Multibase : Prop where
  encoded : ∀ bytes, F.decodeMultibase (F.base58 bytes) = .ok ('z', bytes)
  nonempty : ∀ bytes, F.base58 bytes ≠ ""

theorem accepted_of_returns (multibase : F.Multibase) {sb p : List UInt8}
    (returned : (Principal.decodeBytes sb).Returns p) : F.Accepted p := by
  rcases Principal.returns_decodeBytes.mp returned with ⟨inside, isKey, rfl⟩
  constructor
  · rw [Formats.principalString, if_neg (Principal.ne_nil_of_uvarint isKey),
      Formats.decodePrincipal, if_neg (multibase.nonempty sb), multibase.encoded]
    simp only [ne_eq, not_true_eq_false, if_false]
    exact returned
  · exact Principal.split_of_uvarint isKey

theorem decodes_decodeBytes_iff (multibase : F.Multibase) (sb : List UInt8) :
    F.Decodes (Principal.decodeBytes sb) ↔ ¬ Overflows sb := by
  rw [← uvarint_neg_iff, not_lt, ← Principal.quiet_decodeBytes]
  constructor
  · exact Formats.Decodes.quiet
  · intro quiet
    exact ⟨quiet, fun p => accepted_of_returns F multibase⟩

theorem decodes_throw (message : String) : F.Decodes (throw message) where
  quiet := Attempt.quiet_throw message
  accepted _ returned := absurd returned Attempt.not_returns_throw

theorem decodes_decodePrincipal_iff (multibase : F.Multibase) (s : String) :
    F.Decodes (F.decodePrincipal s) ↔
      (s ≠ "" → ∀ data, F.decodeMultibase s = .ok ('z', data) → ¬ Overflows data) := by
  rw [Formats.decodePrincipal]
  split
  · next isEmpty =>
      constructor
      · exact fun _ named => absurd isEmpty named
      · exact fun _ => decodes_throw F _
  · next named =>
      split
      · next err failed =>
          constructor
          · simp [failed]
          · exact fun _ => decodes_throw F _
      · next enc data decoded =>
          split
          · next other =>
              constructor
              · intro _ _ data' isBase58
                rw [decoded] at isBase58
                simp_all
              · exact fun _ => decodes_throw F _
          · next isBase58 =>
              rw [decodes_decodeBytes_iff F multibase]
              constructor
              · intro fits _ data' same
                rw [decoded] at same
                simp_all
              · intro fits
                apply fits named
                rw [decoded, not_not.mp isBase58]

/-- Principals are decoded, or refused, exactly when their prefix does not overflow. -/
theorem decoding_accepts_or_fails_iff (multibase : F.Multibase) :
    (∀ sb, F.Decodes (Principal.decodeBytes sb) ↔ ¬ Overflows sb) ∧
      ∀ s, F.Decodes (F.decodePrincipal s) ↔
        (s ≠ "" → ∀ data, F.decodeMultibase s = .ok ('z', data) → ¬ Overflows data) :=
  ⟨decodes_decodeBytes_iff F multibase, decodes_decodePrincipal_iff F multibase⟩

/-! ## Base58 texts -/

theorem dropWhile_base58Chars (bytes : List UInt8) :
    (base58Chars bytes).dropWhile (· = '1') =
      ((Nat.digits 58 (bytesValue bytes)).map base58Char).reverse := by
  have parts := List.takeWhile_append_dropWhile (p := fun c => decide (c = '1'))
    (l := base58Chars bytes)
  rw [takeWhile_base58Chars] at parts
  conv at parts => rhs; rw [base58Chars]
  exact List.append_cancel_left parts

theorem idxOf_base58Char {digit : Nat} (small : digit < 58) :
    base58Alphabet.idxOf (base58Char digit) = digit := by
  have all : ∀ digit < 58, base58Alphabet.idxOf (base58Char digit) = digit := by decide +kernel
  exact all digit small

theorem base58Char_mem {digit : Nat} (small : digit < 58) : base58Char digit ∈ base58Alphabet := by
  have all : ∀ digit < 58, base58Char digit ∈ base58Alphabet := by decide +kernel
  exact all digit small

theorem decodeBase58_base58Chars (bytes : List UInt8) :
    decodeBase58 (base58Chars bytes) = bytes := by
  have digits : ((base58Chars bytes).dropWhile (· = '1')).map base58Alphabet.idxOf =
      (Nat.digits 58 (bytesValue bytes)).reverse := by
    rw [dropWhile_base58Chars, List.map_reverse, List.map_map]
    congr 1
    conv_rhs => rw [← List.map_id (Nat.digits 58 (bytesValue bytes))]
    apply List.map_congr_left
    intro digit member
    exact idxOf_base58Char (Nat.digits_lt_base (by decide) member)
  rw [decodeBase58, digits, takeWhile_base58Chars, List.length_replicate, List.reverse_reverse,
    Nat.ofDigits_digits, digits_bytesValue, List.map_map]
  conv_rhs => rw [← zeros_append_significantBytes bytes]
  congr 1
  have same : UInt8.ofNat ∘ UInt8.toNat = id := by
    funext b
    simp
  rw [same, List.map_id, List.reverse_reverse]

theorem sampleMultibase_base58Text (bytes : List UInt8) :
    sampleMultibase (base58Text bytes) = .ok ('z', bytes) := by
  have letters : (base58Chars bytes).all base58Alphabet.contains = true := by
    rw [List.all_eq_true]
    intro c member
    rw [List.contains_iff_mem]
    rcases List.mem_append.mp member with zero | digit
    · rw [List.eq_of_mem_replicate zero]
      decide
    · rcases List.mem_map.mp (List.mem_reverse.mp digit) with ⟨value, inside, rfl⟩
      exact base58Char_mem (Nat.digits_lt_base (by decide) inside)
  rw [sampleMultibase, base58Text, String.toList_ofList]
  simp only
  rw [if_pos letters, decodeBase58_base58Chars]

theorem sampleFormats_multibase (sha256 : List UInt8 → String) :
    (sampleFormats sha256).Multibase where
  encoded := sampleMultibase_base58Text
  nonempty bytes empty := by
    have letters := congrArg String.toList empty
    change (String.ofList _).toList = _ at letters
    rw [String.toList_ofList] at letters
    cases letters

/-- A key with a prefix of three bytes, where two would do. -/
def longPrefix : List UInt8 := 0xed :: 0x81 :: 0x00 :: List.replicate 32 7

theorem longPrefix_is_accepted :
    (sampleFormats fun _ => "").Decodes (Principal.decodeBytes longPrefix) := by
  apply ((decoding_accepts_or_fails_iff _ (sampleFormats_multibase fun _ => "")).1 longPrefix).mpr
  rw [← uvarint_neg_iff]
  decide

/-- A prefix that goes on for eleven bytes. -/
def endlessPrefix : List UInt8 := List.replicate 11 0xff

theorem endlessPrefix_panics :
    (Principal.decodeBytes endlessPrefix).run =
        .error (.panic "runtime error: slice bounds out of range [-11:]") ∧
      ¬ (Principal.decodeBytes endlessPrefix).Quiet := by
  constructor
  · decide +kernel
  · rw [Principal.quiet_decodeBytes]
    decide

end Mintter.Hyper
