/-
**Words as bytes, in either byte order.**

`digit word index` is byte `index` of a word, counted from the least significant one. Encoding
lists the low digits of a word in the chosen order; decoding shifts the bytes of a string into a
word one after another, so of a string longer than a word only the low digits stay.
-/

import RecordLayout.Address

namespace RecordLayout

/-- The order of the bytes of an integer. -/
inductive ByteOrder where
  /-- Most significant byte first. -/
  | big
  /-- Least significant byte first. -/
  | little
  deriving DecidableEq, Repr, Inhabited

namespace ByteOrder

/-- Byte `index` of a word; byte 0 is the least significant one. -/
def digit (word : UInt64) (index : Nat) : UInt8 := (word >>> UInt64.ofNat (8 * index)).toUInt8

/-- The low `width` bytes of a word. -/
def encode (order : ByteOrder) (width : Nat) (word : UInt64) : Bytes :=
  match order with
  | .big => (List.range width).map fun index => digit word (width - 1 - index)
  | .little => (List.range width).map fun index => digit word index

theorem length_encode (order : ByteOrder) (width : Nat) (word : UInt64) :
    (order.encode width word).length = width := by
  cases order <;> simp [encode]

/-- A word with one more byte shifted in at its low end. -/
def shiftIn (word : UInt64) (byte : UInt8) : UInt64 := (word <<< 8) ||| byte.toUInt64

/-- The word that a string of bytes stands for. -/
def decode (order : ByteOrder) (bytes : Bytes) : UInt64 :=
  match order with
  | .big => bytes.foldl shiftIn 0
  | .little => bytes.reverse.foldl shiftIn 0

/-- The number of bytes in a word. -/
def wordBytes : Nat := 8

/-- The low `width` bytes of a word, filled up with zeros to the size of a word. -/
def encodePadded (order : ByteOrder) (width : Nat) (word : UInt64) : Bytes :=
  order.encode (min width wordBytes) word ++ List.replicate (wordBytes - min width wordBytes) 0

theorem length_encodePadded (order : ByteOrder) (width : Nat) (word : UInt64) :
    (order.encodePadded width word).length = wordBytes := by
  simp only [encodePadded, List.length_append, length_encode, List.length_replicate]
  omega

end ByteOrder

end RecordLayout
