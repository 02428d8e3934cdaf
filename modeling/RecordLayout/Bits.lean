/-
**Bits of a byte string, most significant first.**

Position 0 is the high bit of the first byte, position 7 its low bit, position 8 the high bit of
the second byte. Reading past the end fails; writing there changes nothing.

`signExtend word bits` reads the low `bits` bits of a word as a two's complement number.
-/

import RecordLayout.Address

namespace RecordLayout.Bits

/-- The byte with the single bit that `position` has within its byte. -/
def single (position : Nat) : UInt8 := 0x80 >>> UInt8.ofNat (position % 8)

/-- The bit at `position`. -/
def read (data : Bytes) (position : Nat) : Except ReadError Bool :=
  match data[position / 8]? with
  | some byte => .ok ((byte >>> UInt8.ofNat (7 - position % 8)) &&& 1 == 1)
  | none => .error (.notEnoughData (position / 8 + 1) data.length)

/-- Sets or clears the bit at `position`. -/
def write (data : Bytes) (position : Nat) (on : Bool) : Bytes :=
  data.modify (position / 8) fun byte =>
    if on then byte ||| single position else byte &&& ~~~single position

theorem length_write (data : Bytes) (position : Nat) (on : Bool) :
    (write data position on).length = data.length := by
  simp [write]

/-- The low `bits` bits of a word, with the highest of them as the sign. -/
def signExtend (word : UInt64) (bits : Nat) : Int :=
  let shift := UInt64.ofNat (64 - bits)
  ((word <<< shift).toInt64 >>> shift.toInt64).toInt

end RecordLayout.Bits
