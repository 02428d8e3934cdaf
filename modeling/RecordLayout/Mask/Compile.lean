/-
**Checking a mask.**

A described mask becomes a `Mask` when its width is 1 to 8 bytes, its flags have distinct names and
distinct bits inside the mask, the relations name declared flags, no chain of implications returns
to its start, and no flag leads to a flag that it also leads to clearing. `MaskSpec.compile` reports
the first fault in that order.
-/

import RecordLayout.Fault
import RecordLayout.Mask
import RecordLayout.Mask.Implication

namespace RecordLayout

/-- The largest mask, in bytes. -/
def MaskSpec.maxWidth : UInt64 := 8

/-- What is wrong with a flag next to an earlier one. -/
def Flag.clash? (flag earlier : Flag String) : Option SchemaError :=
  if earlier.name = flag.name then some (.duplicateName flag.name)
  else if earlier.bit = flag.bit then some (.duplicateFlagBit earlier.name flag.name)
  else none

/-- What is wrong with a flag of a mask of `bits` bits, given the flags before it. -/
def Flag.fault? (bits : Nat) (earlier : List (Flag String)) (flag : Flag String) :
    Option SchemaError :=
  if flag.name = "" then some .emptyName
  else if bits ≤ flag.bit.toNat then some (.flagBitOutOfRange flag.name flag.bit bits)
  else earlier.findSome? flag.clash?

/-- The indices of the flags that `names` refers to. -/
def Flag.indices (flags : List (Flag String)) (names : List String) :
    Except SchemaError (List Nat) :=
  names.mapM fun name =>
    match flags.findIdx? (·.name == name) with
    | some index => .ok index
    | none => .error (.unknownFlag name)

/-- A flag with its relations resolved to indices into `flags`. -/
def Flag.resolve (flags : List (Flag String)) (flag : Flag String) :
    Except SchemaError (Flag Nat) := do
  let implies ← Flag.indices flags flag.implies
  let excludes ← Flag.indices flags flag.excludes
  return ⟨flag.name, flag.bit, implies, excludes⟩

namespace Mask

/-- The flag at `index` and every flag it implies, directly or through others. -/
def closure (mask : Mask) (index : Nat) : List Nat :=
  Implication.closure mask.implied mask.flags.length index

/-- The flag at which a chain of implications returns to its start. -/
def cyclic? (mask : Mask) : Option SchemaError :=
  (Implication.cycle? mask.implied mask.flags.length).map fun index =>
    .cyclicImplication (mask.nameOf index)

/-- The first flag that setting the flag at `index` would both set and clear. -/
def contradiction? (mask : Mask) (index : Nat) : Option Nat :=
  let members := mask.closure index
  members.findSome? fun member => (mask.excluded member).find? (· ∈ members)

/-- The first flag whose closure contradicts itself. -/
def conflicting? (mask : Mask) : Option SchemaError :=
  (List.range mask.flags.length).findSome? fun index =>
    (mask.contradiction? index).map fun other =>
      .conflictingFlags (mask.nameOf index) (mask.nameOf other)

end Mask

/-- The mask as it stands when only its relations are still to be checked: the width, the names and
the bits of its flags are fine, and the names in the relations are those of flags. -/
def MaskSpec.resolve (spec : MaskSpec) : Except SchemaError Mask := do
  if spec.width = 0 ∨ MaskSpec.maxWidth < spec.width then
    throw (.invalidMaskWidth spec.width)
  let width := spec.width.toNat
  raise (firstFault? (Flag.fault? (8 * width)) [] spec.flags)
  let flags ← spec.flags.mapM (Flag.resolve spec.flags)
  return ⟨width, flags⟩

/-- Resolves a described mask and checks its relations, cycles first. -/
def MaskSpec.compile (spec : MaskSpec) : Except SchemaError Mask := do
  let mask ← spec.resolve
  raise mask.cyclic?
  raise mask.conflicting?
  return mask

end RecordLayout
