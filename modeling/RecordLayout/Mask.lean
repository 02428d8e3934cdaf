/-
**Named flags packed into bytes.**

Every flag of a mask owns one bit, counted from the high bit of the first byte. Setting a flag
also clears the flags it excludes and sets the flags it implies, and so on through them; clearing a
flag touches its own bit only. Reading a flag reports its stored bit and derives nothing.

A `Flag` refers to other flags by names in a description and by indices in a checked mask, so the
type of references is a parameter.
-/

import RecordLayout.Bits

namespace RecordLayout

/-- A named bit with its relations to other flags, which `ρ` refers to. -/
structure Flag (ρ : Type) where
  name : String
  /-- Position of the flag's bit; 0 is the high bit of the first byte. -/
  bit : UInt64
  /-- Flags that are set together with this one. -/
  implies : List ρ
  /-- Flags that are cleared when this one is set. -/
  excludes : List ρ
  deriving DecidableEq, Repr

/-- A mask as a description states it. -/
structure MaskSpec where
  /-- Width in bytes. -/
  width : UInt64
  flags : List (Flag String)
  deriving DecidableEq, Repr

/-- A mask of a layout: its flags refer to each other by their indices. -/
structure Mask where
  /-- Width in bytes. -/
  width : Nat
  flags : List (Flag Nat)
  deriving DecidableEq, Repr

namespace Mask

/-- The index of the flag with a name. -/
def indexOf? (mask : Mask) (name : String) : Option Nat :=
  mask.flags.findIdx? (·.name == name)

/-- The flags that the flag at `index` implies directly. -/
def implied (mask : Mask) (index : Nat) : List Nat :=
  match mask.flags[index]? with
  | some flag => flag.implies
  | none => []

/-- The flags that the flag at `index` excludes directly. -/
def excluded (mask : Mask) (index : Nat) : List Nat :=
  match mask.flags[index]? with
  | some flag => flag.excludes
  | none => []

/-- The name of the flag at `index`. -/
def nameOf (mask : Mask) (index : Nat) : String :=
  match mask.flags[index]? with
  | some flag => flag.name
  | none => ""

/-- Writes the bit of the flag at `index`, and no other. -/
def writeOwn (mask : Mask) (bytes : Bytes) (index : Nat) (on : Bool) : Bytes :=
  match mask.flags[index]? with
  | some flag => Bits.write bytes flag.bit.toNat on
  | none => bytes

theorem length_writeOwn (mask : Mask) (bytes : Bytes) (index : Nat) (on : Bool) :
    (mask.writeOwn bytes index on).length = bytes.length := by
  unfold writeOwn
  split
  · exact Bits.length_write ..
  · rfl

/-- Sets the flag at `index`, clears what it excludes, and does the same for each flag it implies,
following implications for at most `depth` flags in a row. -/
def setWithin (mask : Mask) : (depth : Nat) → Bytes → Nat → Bytes
  | 0, bytes, _ => bytes
  | depth + 1, bytes, index =>
      let own := mask.writeOwn bytes index true
      let cleared := (mask.excluded index).foldl (fun bytes other => mask.writeOwn bytes other false) own
      (mask.implied index).foldl (fun bytes other => mask.setWithin depth bytes other) cleared

/-- Sets or clears the flag at `index`. Implications have no cycle, so a chain of them is never
longer than the list of flags. -/
def switch (mask : Mask) (bytes : Bytes) (index : Nat) (on : Bool) : Bytes :=
  if on then mask.setWithin mask.flags.length bytes index else mask.writeOwn bytes index false

/-- The mask with every flag clear. -/
def blank (mask : Mask) : Bytes := List.replicate mask.width 0

/-- The stored bit of a flag; a bit that is not there is clear. -/
def stored (bytes : Bytes) (flag : Flag Nat) : Bool :=
  match Bits.read bytes flag.bit.toNat with
  | .ok on => on
  | .error _ => false

/-- Sets or clears a flag by name. -/
def set (mask : Mask) (bytes : Bytes) (name : String) (on : Bool) : Except WriteError Bytes :=
  match mask.indexOf? name with
  | some index => .ok (mask.switch bytes index on)
  | none => .error (.unknownFlag name)

/-- The stored bit of a flag by name. -/
def get (mask : Mask) (bytes : Bytes) (name : String) : Except WriteError Bool :=
  match mask.flags.find? (·.name == name) with
  | some flag => .ok (stored bytes flag)
  | none => .error (.unknownFlag name)

/-- The bytes of the mask at `offset`. -/
def readBytes (mask : Mask) (data : Buffer) (offset : Nat) : Except ReadError Bytes :=
  Address.slice data offset mask.width

/-- The bit of a flag in the mask at `offset`. -/
def read (mask : Mask) (data : Buffer) (offset : Nat) (name : String) : Except ReadError Bool :=
  match mask.flags.find? (·.name == name) with
  | some flag => do Bits.read (← mask.readBytes data offset) flag.bit.toNat
  | none => .error (.unknownFlag name)

/-- Every flag with its bit in the mask at `offset`, in the order of declaration. -/
def readAll (mask : Mask) (data : Buffer) (offset : Nat) : Except ReadError (List (String × Bool)) := do
  let bytes ← mask.readBytes data offset
  return mask.flags.map fun flag => (flag.name, stored bytes flag)

end Mask

end RecordLayout
