/-
**Bytes and 64-bit addresses.**

A buffer is an array of bytes, and what is read from it or written to it piece by piece is a list of
them. A position in a buffer is a natural number below `Address.limit`. A sum of positions and
lengths that is not an address is caught where it arises: `Address.advance` refuses it, and
`Address.reach` caps it at the last address, so that an error can say how far a value would have
gone.

* `advance_eq_ok_iff`: a walk advances exactly when the new position is an address.
* `slice_eq_ok_iff`: a slice is found exactly when the buffer reaches its end.
-/

import RecordLayout.Error

namespace RecordLayout

/-- A string of bytes. -/
abbrev Bytes := List UInt8

/-- The bytes of a whole record, or the room for one. -/
abbrev Buffer := Array UInt8

namespace Address

/-- Positions lie below this bound. -/
def limit : Nat := UInt64.size

/-- The largest position. -/
def last : Nat := limit - 1

/-- Where `length` bytes from `position` on end, capped at the last address. -/
def reach (position length : Nat) : Nat :=
  if position + length < limit then position + length else last

/-- The position `length` bytes on; a position that is no address lies past every buffer. -/
def advance (data : Buffer) (position length : Nat) : Except ReadError Nat :=
  if position + length < limit then .ok (position + length)
  else .error (.notEnoughData last data.size)

theorem advance_eq_ok_iff {data : Buffer} {position length next : Nat} :
    advance data position length = .ok next ↔
      next = position + length ∧ position + length < limit := by
  unfold advance
  split <;> simp_all [eq_comm]

/-- The `width` bytes of `data` from `offset` on. -/
def slice (data : Buffer) (offset width : Nat) : Except ReadError Bytes :=
  if offset + width ≤ data.size then .ok (data.extract offset (offset + width)).toList
  else .error (.notEnoughData (reach offset width) data.size)

theorem slice_eq_ok_iff {data : Buffer} {offset width : Nat} {bytes : Bytes} :
    slice data offset width = .ok bytes ↔
      bytes = (data.toList.drop offset).take width ∧ offset + width ≤ data.size := by
  have chunk : (data.extract offset (offset + width)).toList =
      (data.toList.drop offset).take width := by
    rw [Array.toList_extract, List.extract_eq_take_drop, Nat.add_sub_cancel_left]
  unfold slice
  rw [chunk]
  split <;> simp_all [eq_comm]

end Address

end RecordLayout
