/-
**Writing into a buffer of fixed size, front to back.**

A `WriteBuffer` is a buffer with the position up to which it has been written. Writing is allotted
the bytes it needs and fails, without any change, when they are not there. They can be left open: a
gap holds zeros until `fillGap` fills it in, which leaves the position where it is.

A `Write` is a run of such steps. When one fails, the buffer keeps what the earlier ones wrote.
-/

import RecordLayout.Integer

namespace RecordLayout

/-- A buffer and the number of bytes written to its front. -/
structure WriteBuffer where
  bytes : Buffer
  position : Nat
  deriving DecidableEq, Repr

/-- A run of steps on a buffer; a failure keeps the buffer as the run left it. -/
abbrev Write := EStateM WriteError WriteBuffer

/-- An allotted stretch of a buffer that waits for its content. -/
structure Gap where
  start : Nat
  length : Nat
  deriving DecidableEq, Repr

/-- The buffer with the bytes of a chunk in place of what stood at `start`. -/
def overwrite : (buffer : Buffer) → (start : Nat) → (chunk : Bytes) → Buffer
  | buffer, _, [] => buffer
  | buffer, start, byte :: rest => overwrite (buffer.setIfInBounds start byte) (start + 1) rest

theorem size_overwrite (buffer : Buffer) (start : Nat) (chunk : Bytes) :
    (overwrite buffer start chunk).size = buffer.size := by
  induction chunk generalizing buffer start with
  | nil => rfl
  | cons byte rest ih => rw [overwrite, ih, Array.size_setIfInBounds]

/-- A chunk that has room replaces as many bytes as it has. -/
theorem toList_overwrite {buffer : Buffer} {start : Nat} {chunk : Bytes}
    (room : start + chunk.length ≤ buffer.size) :
    (overwrite buffer start chunk).toList =
      buffer.toList.take start ++ chunk ++ buffer.toList.drop (start + chunk.length) := by
  induction chunk generalizing buffer start with
  | nil => simp [overwrite]
  | cons byte rest ih =>
      rw [List.length_cons] at room
      have inside : start < buffer.toList.length := by rw [Array.length_toList]; omega
      rw [overwrite, ih (by rw [Array.size_setIfInBounds]; omega), Array.toList_setIfInBounds,
        List.take_add_one, List.take_set_of_le (Nat.le_refl start),
        List.getElem?_set_self inside, List.drop_set_of_lt (by omega), List.length_cons]
      simp [Nat.add_assoc, Nat.add_comm 1]

namespace WriteBuffer

/-- The start of a buffer. -/
def ofBuffer (buffer : Buffer) : WriteBuffer := ⟨buffer, 0⟩

/-- Allots the next `length` bytes and returns where they start. -/
def allot (length : Nat) : Write Nat := fun buffer =>
  if buffer.position + length ≤ buffer.bytes.size then
    .ok buffer.position { buffer with position := buffer.position + length }
  else
    .error (.writeFailed (buffer.position + length) buffer.bytes.size) buffer

/-- Puts `chunk` at `start`, whatever the position. -/
def put (start : Nat) (chunk : Bytes) : Write Unit :=
  modify fun buffer => { buffer with bytes := overwrite buffer.bytes start chunk }

/-- Writes a string of bytes. -/
def write (chunk : Bytes) : Write Unit := do
  let start ← allot chunk.length
  put start chunk

/-- Writes a word in an integer format. -/
def writeInt (format : IntFormat) (word : UInt64) : Write Unit := do
  let start ← allot format.bytes
  put start (format.encode word)

/-- Allots `length` bytes and leaves them zero. -/
def leaveGap (length : Nat) : Write Gap := do
  let start ← allot length
  put start (List.replicate length 0)
  return ⟨start, length⟩

/-- Fills a gap with the low bytes of a word, as many as both it and the format have. -/
def fillGap (gap : Gap) (format : IntFormat) (word : UInt64) : Write Unit :=
  put gap.start (format.order.encode (min gap.length format.bytes) word)

end WriteBuffer

end RecordLayout
