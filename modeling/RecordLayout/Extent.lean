/-
**The extent of encoded values.**

How long an encoded value is follows from its layout alone when the width is fixed. Otherwise the
counts and keys in the buffer decide, and the length is found by a walk: member after member,
element after element, and past the key into the payload it selects.

* `Layout.extent` takes a fixed width wherever there is one, without a look at the data.
* `locateField` finds a member of a struct by its known offset, or by a walk from the last member that
  has one.

A position that is no 64-bit address ends a walk with an error.
-/

import RecordLayout.Layout.Width

namespace RecordLayout

/-- Runs `step` on a position `times` times in a row. -/
def walkTimes (step : Nat → Except ReadError Nat) : (times position : Nat) → Except ReadError Nat
  | 0, position => .ok position
  | times + 1, position => do walkTimes step times (← step position)

namespace ArrayLength

/-- The number of elements stored at `offset`, which must not exceed the capacity. -/
def storedCount (capacity : UInt64) (counter : IntFormat) (data : Buffer) (offset : Nat) :
    Except ReadError Nat := do
  let stored ← counter.read data offset
  if capacity < stored then throw (.invalidCount stored capacity)
  return stored.toNat

/-- The number of elements of the array at `offset`. -/
def count (length : ArrayLength IntFormat) (data : Buffer) (offset : Nat) : Except ReadError Nat :=
  match length with
  | .fixed count => .ok count.toNat
  | .bounded capacity counter => storedCount capacity counter data offset

/-- Where the elements of the array at `offset` start. -/
def start (length : ArrayLength IntFormat) (data : Buffer) (offset : Nat) : Except ReadError Nat :=
  match length with
  | .fixed _ => .ok offset
  | .bounded _ counter => Address.advance data offset counter.bytes

end ArrayLength

mutual

/-- The length of the value at `offset`. -/
def Layout.extent (data : Buffer) : Layout → (offset : Nat) → Except ReadError Nat
  | .int format, _ => .ok format.bytes
  | .enum enumeration, _ => .ok enumeration.format.bytes
  | .mask mask, _ => .ok mask.width
  | .struct fields, offset =>
      match (Layout.struct fields).width? with
      | some width => .ok width
      | none => do
          let stop ← walkFields data fields offset
          return stop - offset
  | .array element length, offset =>
      match (Layout.array element length).width? with
      | some width => .ok width
      | none => do
          let count ← length.count data offset
          let start ← length.start data offset
          let stop ← walkTimes (fun position => do
            Address.advance data position (← element.extent data position)) count start
          return stop - offset
  | .view key variants, offset =>
      match (Layout.view key variants).width? with
      | some width => .ok width
      | none => do
          let stored ← key.read data offset
          let payload ← payloadExtent data key stored offset variants
          Address.advance data key.bytes payload
  | .constant format _, _ => .ok format.bytes
  | .derived format _, _ => .ok format.bytes

/-- The position behind a run of fields, the first of which starts at `position`. -/
def walkFields (data : Buffer) : List Field → (position : Nat) → Except ReadError Nat
  | [], position => .ok position
  | ⟨_, layout⟩ :: rest, position => do
      let length ← layout.extent data position
      walkFields data rest (← Address.advance data position length)

/-- The length of the payload that `stored` selects, for a view at `offset`. -/
def payloadExtent (data : Buffer) (key : IntFormat) (stored : UInt64) (offset : Nat) :
    List Variant → Except ReadError Nat
  | [] => .error (.unknownVariant stored)
  | ⟨_, value, layout⟩ :: rest =>
      if value = stored then do
        layout.extent data (← Address.advance data offset key.bytes)
      else payloadExtent data key stored offset rest

end

/-- The position behind the value at `position`. -/
def Layout.behind (data : Buffer) (layout : Layout) (position : Nat) : Except ReadError Nat := do
  Address.advance data position (← layout.extent data position)

/-- The last index below `index` with a known offset, and that offset. -/
def lastKnown (offsets : List (Option Nat)) (index : Nat) : Nat × Nat :=
  ((offsets.take index).zipIdx.reverse.findSome? fun (offset, position) =>
    offset.map fun offset => (position, offset)).getD (0, 0)

/-- The position of the field at `index` of a struct that starts at `base`. -/
def locateField (data : Buffer) (fields : List Field) (index base : Nat) : Except ReadError Nat :=
  match (knownOffsets fields)[index]? with
  | some (some offset) => Address.advance data base offset
  | _ => do
      let (start, offset) := lastKnown (knownOffsets fields) index
      let position ← Address.advance data base offset
      walkFields data ((fields.take index).drop start) position

end RecordLayout
