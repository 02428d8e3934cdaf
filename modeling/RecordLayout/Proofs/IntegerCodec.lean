/-
**Integers survive their encoding.**

A word is a number in base 256: the bytes of its encoding are the digits, least significant first
in one byte order and last in the other. Decoding a string of bytes is the positional value of
the digits, cut to 64 bits (`ByteOrder.toNat_decode_little`), and encoding lists the digits of the
number cut to the width (`ByteOrder.ofDigits_encode_little`).

* `ByteOrder.decode_encode`: a word that the width can hold comes back from its bytes.
* `IntFormat.toNat_toWord`: the word of a number is the number modulo the range of the width.
* `signExtend_eq_bmod`: sign extension takes the remainder that is balanced around zero.
* `IntFormat.ofWord_toWord`: a number that fits comes back from its word.
* `ByteOrder.eq_of_decode_eq`, `IntFormat.eq_of_ofWord_eq`: neither step on the way from bytes to
  numbers takes two of them to the same.
-/

import Mathlib.Data.Nat.Digits.Lemmas
import Mathlib.Tactic.IntervalCases
import RecordLayout.Integer

namespace RecordLayout

namespace ByteOrder

/-! ### Bytes as digits -/

theorem encode_big (width : Nat) (word : UInt64) :
    encode .big width word = (encode .little width word).reverse := by
  apply List.ext_getElem
  · simp [length_encode]
  · intro index inside _
    rw [length_encode] at inside
    simp [encode]

theorem decode_big (bytes : Bytes) : decode .big bytes = decode .little bytes.reverse := by
  simp [decode]

theorem toNat_shiftIn (word : UInt64) (byte : UInt8) :
    (shiftIn word byte).toNat = (byte.toNat + 256 * word.toNat) % 2 ^ 64 := by
  have small := byte.toNat_lt
  have low : 256 * word.toNat % 2 ^ 64 = 2 ^ 8 * (word.toNat % 2 ^ 56) := by omega
  rw [shiftIn, UInt64.toNat_or, UInt64.toNat_shiftLeft, UInt8.toNat_toUInt64]
  show word.toNat <<< 8 % 2 ^ 64 ||| byte.toNat = _
  rw [Nat.shiftLeft_eq, Nat.mul_comm, show (2 : Nat) ^ 8 = 256 from rfl, low,
    ← Nat.two_pow_add_eq_or_of_lt small]
  omega

/-- **Decoding is the positional value**, cut to the size of a word. -/
theorem toNat_decode_little (bytes : Bytes) :
    (decode .little bytes).toNat = Nat.ofDigits 256 (bytes.map UInt8.toNat) % 2 ^ 64 := by
  induction bytes with
  | nil => rfl
  | cons byte rest ih =>
      have step : decode .little (byte :: rest) = shiftIn (decode .little rest) byte := by
        simp [decode, List.foldl_append]
      rw [step, toNat_shiftIn, ih, List.map_cons, Nat.ofDigits_cons]
      omega

theorem toNat_digit (word : UInt64) {index : Nat} (inside : index < wordBytes) :
    (digit word index).toNat = word.toNat / 256 ^ index % 256 := by
  have amount : 8 * index % 2 ^ 64 % 64 = 8 * index := by
    unfold wordBytes at inside
    omega
  rw [digit, UInt64.toNat_toUInt8, UInt64.toNat_shiftRight, UInt64.toNat_ofNat',
    Nat.shiftRight_eq_div_pow, amount, pow_mul]
  rfl

/-- **Encoding lists the digits** of the word, cut to the width. -/
theorem ofDigits_encode_little {width : Nat} (small : width ≤ wordBytes) (word : UInt64) :
    Nat.ofDigits 256 ((encode .little width word).map UInt8.toNat) = word.toNat % 256 ^ width := by
  induction width with
  | zero => simp [encode, Nat.mod_one]
  | succ width ih =>
      have grown : encode .little (width + 1) word =
          encode .little width word ++ [digit word width] := by
        simp [encode, List.range_succ]
      rw [grown, List.map_append, Nat.ofDigits_append, ih (by omega), List.length_map,
        length_encode, List.map_singleton, Nat.ofDigits_singleton,
        toNat_digit word (by omega), Nat.mod_pow_succ]

/-- **A word comes back from its bytes**, if it has no more than the width can hold. -/
theorem decode_encode (order : ByteOrder) {width : Nat} (small : width ≤ wordBytes) {word : UInt64}
    (held : word.toNat < 256 ^ width) : order.decode (order.encode width word) = word := by
  have little : decode .little (encode .little width word) = word := by
    apply UInt64.toNat_inj.mp
    rw [toNat_decode_little, ofDigits_encode_little small, Nat.mod_eq_of_lt held]
    exact Nat.mod_eq_of_lt word.toNat_lt
  cases order with
  | little => exact little
  | big => rw [encode_big, decode_big, List.reverse_reverse, little]

theorem lt_of_mem_map_toNat (bytes : Bytes) : ∀ digit ∈ bytes.map UInt8.toNat, digit < 256 := by
  intro digit member
  obtain ⟨byte, -, rfl⟩ := List.mem_map.mp member
  exact byte.toNat_lt

theorem ofDigits_lt (bytes : Bytes) :
    Nat.ofDigits 256 (bytes.map UInt8.toNat) < 256 ^ bytes.length := by
  simpa using Nat.ofDigits_lt_base_pow_length (by decide) (lt_of_mem_map_toNat bytes)

/-- A string no longer than a word is cut nowhere. -/
theorem toNat_decode_of_le {bytes : Bytes} (small : bytes.length ≤ wordBytes) :
    (decode .little bytes).toNat = Nat.ofDigits 256 (bytes.map UInt8.toNat) := by
  have room : 256 ^ bytes.length ≤ 256 ^ wordBytes := Nat.pow_le_pow_right (by decide) small
  have below := ofDigits_lt bytes
  rw [toNat_decode_little]
  exact Nat.mod_eq_of_lt (by unfold wordBytes at room; omega)

/-- A word has no more than its bytes can hold. -/
theorem toNat_decode_lt (order : ByteOrder) {bytes : Bytes} (small : bytes.length ≤ wordBytes) :
    (order.decode bytes).toNat < 256 ^ bytes.length := by
  cases order with
  | little =>
      rw [toNat_decode_of_le small]
      exact ofDigits_lt bytes
  | big =>
      rw [← List.length_reverse] at small ⊢
      rw [decode_big, toNat_decode_of_le small]
      exact ofDigits_lt bytes.reverse

/-- **Bytes come back from their word**: of the strings of one length, no two have the same. -/
theorem eq_of_decode_eq {order : ByteOrder} {first second : Bytes}
    (length : first.length = second.length) (small : first.length ≤ wordBytes)
    (same : order.decode first = order.decode second) : first = second := by
  have little {first second : Bytes} (length : first.length = second.length)
      (small : first.length ≤ wordBytes) (same : decode .little first = decode .little second) :
      first = second := by
    have numbers := congrArg UInt64.toNat same
    rw [toNat_decode_of_le small, toNat_decode_of_le (length ▸ small)] at numbers
    have digits : first.map UInt8.toNat = second.map UInt8.toNat :=
      Nat.ofDigits_inj_of_len_eq (by decide) (by simpa using length) (lt_of_mem_map_toNat first)
        (lt_of_mem_map_toNat second) numbers
    exact List.map_injective_iff.mpr (fun _ _ => UInt8.toNat_inj.mp) digits
  cases order with
  | little => exact little length small same
  | big =>
      rw [decode_big, decode_big] at same
      have reversed : first.reverse = second.reverse :=
        little (by simpa using length) (by simpa using small) same
      exact List.reverse_injective reversed

end ByteOrder

/-! ### Sign extension -/

theorem toInt_shift_shift (word : UInt64) {shift : Nat} (small : shift < 64) :
    ((word <<< UInt64.ofNat shift).toInt64 >>> (UInt64.ofNat shift).toInt64).toInt =
      Int.bmod (word.toNat * 2 ^ shift : Nat) (2 ^ 64) / 2 ^ shift := by
  have amount : (UInt64.ofNat shift).toNat % 64 = shift := by
    rw [UInt64.toNat_ofNat']
    omega
  have signedAmount : ((UInt64.ofNat shift).toBitVec.smod 64).toNat = shift := by
    show ((BitVec.ofNat 64 shift).smod 64).toNat = shift
    interval_cases shift <;> rfl
  have cut (value size : Nat) : Int.bmod (value % size : Nat) size = Int.bmod value size := by
    rw [Int.natCast_mod, Int.emod_bmod]
  rw [← Int64.toInt_toBitVec, Int64.toBitVec_shiftRight, UInt64.toBitVec_toInt64,
    UInt64.toBitVec_toInt64, BitVec.sshiftRight_eq', BitVec.toInt_sshiftRight, signedAmount,
    Int.shiftRight_eq_div_pow, BitVec.toInt_eq_toNat_bmod, UInt64.toNat_toBitVec,
    UInt64.toNat_shiftLeft, amount, Nat.shiftLeft_eq, cut, Nat.cast_pow, Nat.cast_ofNat]

/-- **Sign extension takes the balanced remainder.** -/
theorem signExtend_eq_bmod (width : IntWidth) (word : UInt64) :
    Bits.signExtend word width.bits = Int.bmod word.toNat (2 ^ width.bits) := by
  rw [Bits.signExtend, toInt_shift_shift word (by cases width <;> decide)]
  cases width <;> simp only [IntWidth.bits, IntWidth.bytes, Int.bmod_def] <;> norm_num <;> omega

/-! ### Words of numbers -/

theorem IntWidth.bits_le (width : IntWidth) : width.bits ≤ 64 := by
  cases width <;> decide

theorem IntWidth.size_eq (width : IntWidth) : width.size = 2 ^ width.bits :=
  Nat.one_shiftLeft width.bits

theorem IntWidth.pow_bits (width : IntWidth) : 2 ^ width.bits = 256 ^ width.bytes := by
  rw [IntWidth.bits, pow_mul]
  rfl

namespace IntFormat

/-- **The word of a number** is the number modulo the range of the width. -/
theorem toNat_toWord (format : IntFormat) (value : Int) :
    ((format.toWord value).toNat : Int) = value % 2 ^ format.width.bits := by
  have cover : (2 : Nat) ^ format.width.bits ∣ 2 ^ 64 := pow_dvd_pow 2 format.width.bits_le
  have low : format.width.mask.toNat = 2 ^ format.width.bits - 1 := by
    cases format.width <;> decide
  rw [toWord, UInt64.toNat_and, low, Nat.and_two_pow_sub_one_eq_mod]
  have whole : ((UInt64.ofInt value).toNat : Int) = value % 2 ^ 64 := by
    rw [UInt64.ofInt, UInt64.toNat_ofNat']
    omega
  rw [Int.natCast_mod, whole, Nat.cast_pow, Nat.cast_ofNat]
  exact Int.emod_emod_of_dvd value (by exact_mod_cast cover)

theorem toWord_lt (format : IntFormat) (value : Int) :
    (format.toWord value).toNat < 2 ^ format.width.bits := by
  have bounded := Int.emod_lt_of_pos value (show (0 : Int) < 2 ^ format.width.bits by positivity)
  rw [← toNat_toWord] at bounded
  exact_mod_cast bounded

/-- **A number that fits comes back from its word.** -/
theorem ofWord_toWord {format : IntFormat} {value : Int} (fits : format.fits value) :
    format.ofWord (format.toWord value) = value := by
  obtain ⟨low, high⟩ := fits_iff.mp fits
  unfold ofWord
  unfold min at low
  unfold max at high
  rw [IntWidth.size_eq] at low high
  split_ifs at low high ⊢ with signed
  · rw [signExtend_eq_bmod, toNat_toWord, ← Nat.cast_ofNat, ← Nat.cast_pow, Int.emod_bmod]
    apply Int.bmod_eq_of_le <;> omega
  · rw [toNat_toWord]
    push_cast at high
    exact Int.emod_eq_of_lt low (by omega)

/-- **A word comes back from its number**: of the words that the format holds, no two have the same. -/
theorem eq_of_ofWord_eq {format : IntFormat} {first second : UInt64}
    (held : first.toNat < 2 ^ format.width.bits) (heldToo : second.toNat < 2 ^ format.width.bits)
    (same : format.ofWord first = format.ofWord second) : first = second := by
  apply UInt64.toNat_inj.mp
  unfold ofWord at same
  split_ifs at same with signed
  · -- balanced remainders are equal only where the remainders are
    rw [signExtend_eq_bmod, signExtend_eq_bmod] at same
    have remainders := congrArg (fun number : Int => number % (2 ^ format.width.bits : Nat)) same
    simp only [Int.bmod_emod, ← Int.natCast_mod, Nat.mod_eq_of_lt held,
      Nat.mod_eq_of_lt heldToo] at remainders
    exact Int.ofNat_inj.mp remainders
  · exact Int.ofNat_inj.mp same

/-- An unsigned number that fits is within the range of the width. -/
theorem lt_of_fits {format : IntFormat} {value : Nat} (fits : format.fits value) :
    value < 2 ^ format.width.bits := by
  have high := (fits_iff.mp fits).2
  have positive : 0 < format.width.size := by cases format.width <;> decide
  unfold max at high
  rw [← IntWidth.size_eq]
  split_ifs at high <;> omega

/-- **A word comes back from its bytes**, if the format can hold it. -/
theorem decode_encode (format : IntFormat) {word : UInt64}
    (held : word.toNat < 2 ^ format.width.bits) :
    format.order.decode (format.encode word) = word :=
  ByteOrder.decode_encode _ format.width.bytes_le (by rwa [← IntWidth.pow_bits])

end IntFormat

end RecordLayout
