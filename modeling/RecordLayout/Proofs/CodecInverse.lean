/-
**Numbers, words and bytes are three names for one thing.**

A number that fits a format has a word, and the word has bytes; a string of as many bytes as the
format has is a word, and the word is a number. The two directions undo each other at every width,
with or without a sign and in both byte orders. So the numbers that fit are exactly those that some
string of bytes stands for.

* `IntFormat.encode_decode`: bytes come back from their word.
* `IntFormat.fits_ofWord`, `IntFormat.toWord_ofWord`: the number of a word fits, and the word comes
  back from it.
* `ByteOrder.toNat_decode_big`: a string of any length is a number in base 256, cut to 64 bits.
* `IntFormat.codec_inverse`: the whole correspondence, for every integer that can be described.
-/

import RecordLayout.Proofs.SizeReferences

namespace RecordLayout

namespace ByteOrder

/-- **A string of bytes is a number in base 256**, its first byte the most significant one. Of a
number that is too large, the low 64 bits stay. -/
theorem toNat_decode_big (bytes : Bytes) :
    (decode .big bytes).toNat =
      Nat.ofDigits 256 (bytes.reverse.map UInt8.toNat) % 2 ^ 64 := by
  rw [decode_big, toNat_decode_little]

theorem decode_little (bytes : Bytes) : decode .little bytes = decode .big bytes.reverse := by
  rw [decode_big, List.reverse_reverse]

theorem encode_little (width : Nat) (word : UInt64) :
    encode .little width word = (encode .big width word).reverse := by
  rw [encode_big, List.reverse_reverse]

/-- **Bytes come back from their word**, if they are no more than a word has. -/
theorem encode_decode (order : ByteOrder) {bytes : Bytes} (small : bytes.length ≤ wordBytes) :
    order.encode bytes.length (order.decode bytes) = bytes := by
  have length : (order.encode bytes.length (order.decode bytes)).length = bytes.length :=
    length_encode ..
  have same : order.decode (order.encode bytes.length (order.decode bytes)) = order.decode bytes :=
    decode_encode order small (order.toNat_decode_lt small)
  exact eq_of_decode_eq length (length.trans_le small) same

end ByteOrder

namespace IntFormat

variable {format : IntFormat} {bytes : Bytes} {word : UInt64}

/-! ### Words and bytes -/

theorem decode_eq (whole : bytes.length = format.bytes) :
    format.decode bytes = format.order.decode bytes := by
  rw [decode, List.take_of_length_le whole.le]

theorem encode_decode (whole : bytes.length = format.bytes) :
    format.encode (format.decode bytes) = bytes := by
  have small : bytes.length ≤ ByteOrder.wordBytes := whole ▸ format.width.bytes_le
  rw [decode_eq whole, encode, ← whole, ByteOrder.encode_decode _ small]

/-- The word of a string of bytes is within the width. -/
theorem decode_lt (whole : bytes.length = format.bytes) :
    (format.decode bytes).toNat < 2 ^ format.width.bits := by
  have small : bytes.length ≤ ByteOrder.wordBytes := whole ▸ format.width.bytes_le
  have below := format.order.toNat_decode_lt small
  rw [whole] at below
  rwa [decode_eq whole, IntWidth.pow_bits]

/-! ### Numbers and words -/

/-- **The number of a word fits**, if the word is within the width. -/
theorem fits_ofWord (held : word.toNat < 2 ^ format.width.bits) :
    format.fits (format.ofWord word) := by
  have even : 2 ^ format.width.bits = 2 * 2 ^ (format.width.bits - 1) := by
    cases format.width <;> rfl
  rw [fits_iff, min, max, ofWord, IntWidth.size_eq]
  split_ifs with signed
  · -- the balanced remainder lies between the halves of the range
    have positive : 0 < 2 ^ format.width.bits := Nat.two_pow_pos _
    have low := Int.le_bmod (x := word.toNat) positive
    have high := Int.bmod_lt (x := word.toNat) positive
    rw [signExtend_eq_bmod]
    omega
  · omega

/-- **A word comes back from its number**, if the word is within the width. -/
theorem toWord_ofWord (held : word.toNat < 2 ^ format.width.bits) :
    format.toWord (format.ofWord word) = word :=
  eq_of_ofWord_eq (format.toWord_lt _) held (ofWord_toWord (fits_ofWord held))

/-- **A number comes back from its bytes**, if it fits. -/
theorem ofWord_decode_encode {value : Int} (fits : format.fits value) :
    format.ofWord (format.decode (format.encode (format.toWord value))) = value := by
  rw [decode_eq (format.length_encode _), format.decode_encode (format.toWord_lt value),
    ofWord_toWord fits]

/-- The numbers that fit are those that strings of bytes stand for. -/
theorem fits_iff_exists_bytes {value : Int} :
    format.fits value ↔
      ∃ bytes : Bytes, bytes.length = format.bytes ∧ format.ofWord (format.decode bytes) = value := by
  constructor
  · intro fits
    exact ⟨_, format.length_encode _, ofWord_decode_encode fits⟩
  · rintro ⟨bytes, whole, rfl⟩
    exact fits_ofWord (decode_lt whole)

/-- **Encoding and decoding undo each other**, for every integer that can be described: from numbers
that fit through words to bytes and back, and from bytes of the described width through words to
numbers and back. What bytes stand for is their positional value, and the two byte orders list the
same bytes from opposite ends. -/
theorem codec_inverse {spec : IntSpec} {inherited : ByteOrder}
    (accepted : spec.resolve inherited = .ok format) :
    let width := spec.width.toNat
    (∀ value, format.fits value →
      (format.toWord value).toNat < 2 ^ (8 * width) ∧
      (format.encode (format.toWord value)).length = width ∧
      format.ofWord (format.decode (format.encode (format.toWord value))) = value) ∧
    (∀ bytes : Bytes, bytes.length = width →
      format.encode (format.decode bytes) = bytes ∧
      format.fits (format.ofWord (format.decode bytes)) ∧
      format.toWord (format.ofWord (format.decode bytes)) = format.decode bytes) ∧
    (∀ value, format.fits value ↔
      ∃ bytes : Bytes, bytes.length = width ∧ format.ofWord (format.decode bytes) = value) ∧
    (∀ bytes : Bytes,
      (ByteOrder.big.decode bytes).toNat =
        Nat.ofDigits 256 (bytes.reverse.map UInt8.toNat) % 2 ^ 64 ∧
      ByteOrder.little.decode bytes = ByteOrder.big.decode bytes.reverse) ∧
    ∀ length word,
      ByteOrder.little.encode length word = (ByteOrder.big.encode length word).reverse := by
  intro width
  have settled : width = format.bytes := (IntSpec.resolve_eq_ok_iff.mp accepted).1
  rw [settled]
  refine ⟨fun value fits => ⟨format.toWord_lt value, format.length_encode _, ?_⟩,
    fun bytes whole => ⟨encode_decode whole, ?_, ?_⟩, fun value => fits_iff_exists_bytes,
    fun bytes => ⟨ByteOrder.toNat_decode_big bytes, ByteOrder.decode_little bytes⟩,
    ByteOrder.encode_little⟩
  · exact ofWord_decode_encode fits
  · exact fits_ofWord (decode_lt whole)
  · exact toWord_ofWord (decode_lt whole)

/-- The smallest number of three bytes, and a string of three bytes with the sign set. -/
theorem codec_inverse_threeBytes :
    let format : IntFormat := ⟨.three, true, .little⟩
    (⟨3, true, some .little⟩ : IntSpec).resolve .big = .ok format ∧
      format.fits (-8388608) ∧
      format.ofWord (format.decode (format.encode (format.toWord (-8388608)))) = -8388608 ∧
      format.encode (format.decode [1, 2, 255]) = [1, 2, 255] := by
  intro format
  have accepted : (⟨3, true, some .little⟩ : IntSpec).resolve .big = .ok format := rfl
  obtain ⟨numbers, strings, -⟩ := codec_inverse accepted
  have fits : format.fits (-8388608) := by decide
  exact ⟨accepted, fits, (numbers _ fits).2.2, (strings [1, 2, 255] rfl).1⟩

end IntFormat

end RecordLayout
