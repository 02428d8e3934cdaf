/-
**Fixed-width integers.**

An integer occupies 1, 2, 3, 4 or 8 bytes, is signed or not, and has a byte order. `IntSpec` is
what a description says: its width is any word, and its byte order may be left to the enclosing
struct. `IntSpec.resolve` checks the width and settles the order; the outcome is an `IntFormat`,
whose width is one of the five by construction.

A number that fits the format is stored as a word: the two's complement pattern, cut to the
width. `toWord` and `ofWord` go between the two, `encode` and `decode` between the word and its
bytes, and `read` finds a word in a buffer.
-/

import RecordLayout.Bits
import RecordLayout.ByteOrder

namespace RecordLayout

/-- The sizes an integer may have. -/
inductive IntWidth where
  | one
  | two
  | three
  | four
  | eight
  deriving DecidableEq, Repr

namespace IntWidth

/-- The size in bytes. -/
def bytes : IntWidth → Nat
  | .one => 1
  | .two => 2
  | .three => 3
  | .four => 4
  | .eight => 8

/-- The size in bits. -/
def bits (width : IntWidth) : Nat := 8 * width.bytes

/-- The size that a number of bytes names, if it is a supported one. -/
def ofBytes? (bytes : UInt64) : Option IntWidth :=
  if bytes = 1 then some .one
  else if bytes = 2 then some .two
  else if bytes = 3 then some .three
  else if bytes = 4 then some .four
  else if bytes = 8 then some .eight
  else none

theorem bytes_pos (width : IntWidth) : 0 < width.bytes := by
  cases width <;> decide

theorem bytes_le (width : IntWidth) : width.bytes ≤ ByteOrder.wordBytes := by
  cases width <;> decide

/-- How many words have the width. -/
def size (width : IntWidth) : Nat := 1 <<< width.bits

/-- The word whose low bits, as many as the width has, are all set. -/
def mask (width : IntWidth) : UInt64 := UInt64.ofNat (width.size - 1)

end IntWidth

/-- An integer as a description states it. -/
structure IntSpec where
  /-- Width in bytes. -/
  width : UInt64
  signed : Bool
  /-- Without an order of its own the integer takes that of the enclosing struct. -/
  order : Option ByteOrder
  deriving DecidableEq, Repr

/-- An integer of a layout. -/
structure IntFormat where
  width : IntWidth
  signed : Bool
  order : ByteOrder
  deriving DecidableEq, Repr

/-- Checks the width and settles the byte order, which is `inherited` if none is stated. -/
def IntSpec.resolve (inherited : ByteOrder) (spec : IntSpec) : Except SchemaError IntFormat :=
  match IntWidth.ofBytes? spec.width with
  | some width => .ok ⟨width, spec.signed, spec.order.getD inherited⟩
  | none => .error (.invalidWidth spec.width)

namespace IntFormat

/-- The size in bytes. -/
def bytes (format : IntFormat) : Nat := format.width.bytes

/-- The largest number of the format. -/
def max (format : IntFormat) : Int :=
  if format.signed then format.width.size / 2 - 1 else format.width.size - 1

/-- The smallest number of the format. -/
def min (format : IntFormat) : Int :=
  if format.signed then -(format.width.size / 2) else 0

/-- Whether a number lies between the limits of the format. -/
def fits (format : IntFormat) (value : Int) : Bool :=
  format.min ≤ value && value ≤ format.max

theorem fits_iff {format : IntFormat} {value : Int} :
    format.fits value ↔ format.min ≤ value ∧ value ≤ format.max := by
  simp [fits]

/-- The word of a number, cut to the width of the format. -/
def toWord (format : IntFormat) (value : Int) : UInt64 := UInt64.ofInt value &&& format.width.mask

/-- The number that a word stands for. -/
def ofWord (format : IntFormat) (word : UInt64) : Int :=
  if format.signed then Bits.signExtend word format.width.bits else word.toNat

/-- The bytes of a word. -/
def encode (format : IntFormat) (word : UInt64) : Bytes := format.order.encode format.bytes word

theorem length_encode (format : IntFormat) (word : UInt64) :
    (format.encode word).length = format.bytes :=
  ByteOrder.length_encode ..

/-- The word in the first bytes of a string. -/
def decode (format : IntFormat) (bytes : Bytes) : UInt64 :=
  format.order.decode (bytes.take format.bytes)

/-- The word at `offset`. -/
def read (format : IntFormat) (data : Buffer) (offset : Nat) : Except ReadError UInt64 := do
  return format.order.decode (← Address.slice data offset format.bytes)

end IntFormat

end RecordLayout
