/-
**Reading a record part by part.**

A `Reader` stands at a value in a buffer: it knows the name of the value, its layout and its
offset. Stepping to a member, an element or a payload computes the offset of the part and decodes
nothing else; only the counts and keys on the way are looked at.

`Reader.elements` runs over the elements of an array in order, which keeps the position from one
element to the next. `Reader.element` jumps to an element by its index.
-/

import RecordLayout.Decode
import RecordLayout.Schema

namespace RecordLayout

/-- A value in a buffer. -/
structure Reader where
  data : Buffer
  name : String
  layout : Layout
  offset : Nat

/-- The record at `base`. -/
def Schema.readerAt (schema : Schema) (data : Buffer) (base : Nat) : Reader :=
  ⟨data, "", schema.root, base⟩

/-- The record at the front of `data`. -/
def Schema.reader (schema : Schema) (data : Buffer) : Reader := schema.readerAt data 0

/-- Decodes the record at the front of `data`. -/
def Schema.parse (schema : Schema) (data : Buffer) : Except ReadError Value :=
  schema.root.decode data "" 0

namespace Reader

/-- The value in full. -/
def value (reader : Reader) : Except ReadError Value :=
  reader.layout.decode reader.data reader.name reader.offset

/-- The length of the value as found in the buffer. -/
def extent (reader : Reader) : Except ReadError Nat :=
  reader.layout.extent reader.data reader.offset

/-! ### Integers and masks -/

/-- The stored word of an integer, enumeration, constant or size, and the number it stands for. -/
def number (reader : Reader) : Except ReadError Int := do
  match reader.layout with
  | .int format => return format.ofWord (← format.read reader.data reader.offset)
  | .enum enumeration => return (← enumeration.format.read reader.data reader.offset).toNat
  | .constant format _ => return (← format.read reader.data reader.offset).toNat
  | .derived format _ => return format.ofWord (← format.read reader.data reader.offset)
  | _ => throw (.wrongKind reader.name)

/-- The number, which must not be negative. -/
def unsigned (reader : Reader) : Except ReadError UInt64 := do
  match unsigned? (← reader.number) with
  | some value => return value
  | none => throw (.wrongKind reader.name)

/-- The number, which must be in the range of a signed 64-bit word. -/
def signed (reader : Reader) : Except ReadError Int := do
  match signed? (← reader.number) with
  | some value => return value
  | none => throw (.wrongKind reader.name)

/-- The name of the stored value of an enumeration. -/
def enumName (reader : Reader) : Except ReadError String :=
  match reader.layout with
  | .enum enumeration => enumeration.read reader.data reader.offset
  | _ => .error (.wrongKind reader.name)

/-- The mask that the reader stands at. -/
def asMask (reader : Reader) : Except ReadError Mask :=
  match reader.layout with
  | .mask mask => .ok mask
  | _ => .error (.wrongKind reader.name)

/-- The bit of a flag. -/
def flag (reader : Reader) (name : String) : Except ReadError Bool := do
  (← reader.asMask).read reader.data reader.offset name

/-! ### Structs -/

/-- The fields of the struct that the reader stands at. -/
def asStruct (reader : Reader) : Except ReadError (List Field) :=
  match reader.layout with
  | .struct fields => .ok fields
  | _ => .error (.wrongKind reader.name)

/-- The member of a struct with a name. -/
def field (reader : Reader) (name : String) : Except ReadError Reader := do
  let fields ← reader.asStruct
  match Field.indexOf? fields name with
  | none => throw (.unknownField name)
  | some index =>
      match fields[index]? with
      | none => throw (.unknownField name)
      | some field =>
          let offset ← locateField reader.data fields index reader.offset
          return ⟨reader.data, field.name, field.layout, offset⟩

/-- The length of a struct as found in the buffer. -/
def size (reader : Reader) : Except ReadError Nat := do
  let _ ← reader.asStruct
  reader.extent

/-- Where a member of a struct starts and ends. -/
def span (reader : Reader) (name : String) : Except ReadError (Nat × Nat) := do
  let member ← reader.field name
  let length ← member.extent
  return (member.offset, ← Address.advance member.data member.offset length)

/-! ### Arrays -/

/-- The element layout and the length of the array that the reader stands at. -/
def asArray (reader : Reader) : Except ReadError (Layout × ArrayLength IntFormat) :=
  match reader.layout with
  | .array element length => .ok (element, length)
  | _ => .error (.wrongKind reader.name)

/-- The number of elements of an array. -/
def count (reader : Reader) : Except ReadError Nat := do
  let (_, length) ← reader.asArray
  length.count reader.data reader.offset

/-- How far `index` elements of width `width` reach, capped at the last address. -/
def skip (index width : Nat) : Nat :=
  if index * width < Address.limit then index * width else Address.last

/-- The element of an array with an index. -/
def element (reader : Reader) (index : Nat) : Except ReadError Reader := do
  let (element, length) ← reader.asArray
  let count ← length.count reader.data reader.offset
  if count ≤ index then throw (.indexOutOfRange index count)
  let start ← length.start reader.data reader.offset
  let offset ← match element.width? with
    | some width => Address.advance reader.data start (skip index width)
    | none => walkTimes (element.behind reader.data) index start
  return ⟨reader.data, reader.name, element, offset⟩

/-- The elements of an array that are still to come: how many, and where the next one starts. -/
structure Elements where
  data : Buffer
  name : String
  layout : Layout
  remaining : Nat
  position : Nat

/-- The elements of an array, in order. -/
def elements (reader : Reader) : Except ReadError Elements := do
  let (element, length) ← reader.asArray
  let count ← length.count reader.data reader.offset
  let start ← length.start reader.data reader.offset
  return ⟨reader.data, reader.name, element, count, start⟩

namespace Elements

/-- The next element, and the elements behind it. An element whose end cannot be found is the last
thing reported. -/
def next? (elements : Elements) : Option (Except ReadError Reader × Elements) :=
  match elements.remaining with
  | 0 => none
  | remaining + 1 =>
      let reader : Reader := ⟨elements.data, elements.name, elements.layout, elements.position⟩
      match elements.layout.behind elements.data elements.position with
      | .ok position =>
          some (.ok reader, { elements with remaining := remaining, position := position })
      | .error cause => some (.error cause, { elements with remaining := 0 })

/-- The next elements, at most `limit` of them. -/
def take : (limit : Nat) → Elements → List (Except ReadError Reader)
  | 0, _ => []
  | limit + 1, elements =>
      match elements.next? with
      | some (item, rest) => item :: take limit rest
      | none => []

end Elements

/-! ### Views -/

/-- The key format and the variants of the view that the reader stands at. -/
def asView (reader : Reader) : Except ReadError (IntFormat × List Variant) :=
  match reader.layout with
  | .view key variants => .ok (key, variants)
  | _ => .error (.wrongKind reader.name)

/-- The stored key of a view. -/
def key (reader : Reader) : Except ReadError UInt64 := do
  let (key, _) ← reader.asView
  readKey reader.data reader.name key reader.offset

/-- The payload of a view, read as that of a variant. -/
def payloadAs (reader : Reader) (key : IntFormat) (variant : Variant) : Except ReadError Reader := do
  let offset ← Address.advance reader.data reader.offset key.bytes
  return ⟨reader.data, variant.name, variant.layout, offset⟩

/-- The payload of the variant with a key, which must be the stored one. -/
def variant (reader : Reader) (requested : UInt64) : Except ReadError Reader := do
  let (key, variants) ← reader.asView
  match variants.find? (·.key == requested) with
  | none => throw (.unknownVariant requested)
  | some variant =>
      let stored ← readKey reader.data reader.name key reader.offset
      if stored ≠ requested then
        if variants.any (·.key == stored) then throw (.wrongVariant requested stored)
        else throw (.unknownVariant stored)
      else reader.payloadAs key variant

/-- The payload of the variant with a name, whose key must be the stored one. -/
def variantNamed (reader : Reader) (name : String) : Except ReadError Reader := do
  let (_, variants) ← reader.asView
  match variants.find? (·.name == name) with
  | none => throw (.unknownVariantName name)
  | some variant => reader.variant variant.key

/-- The stored key and the payload of the variant that it selects. -/
def active (reader : Reader) : Except ReadError (UInt64 × Reader) := do
  let (key, variants) ← reader.asView
  let stored ← readKey reader.data reader.name key reader.offset
  match variants.find? (·.key == stored) with
  | none => throw (.unknownVariant stored)
  | some variant => return (stored, ← reader.payloadAs key variant)

/-! ### Paths -/

/-- A step from a value to a part of it. -/
inductive Step where
  | member (name : String)
  | element (index : Nat)
  | key (value : UInt64)
  | variant (name : String)
  /-- The payload of the variant that the stored key selects. -/
  | active

/-- The part that a step leads to. -/
def step (reader : Reader) : Step → Except ReadError Reader
  | .member name => reader.field name
  | .element index => reader.element index
  | .key value => reader.variant value
  | .variant name => reader.variantNamed name
  | .active => do return (← reader.active).2

/-- The part that a path leads to. -/
def along (reader : Reader) (path : List Step) : Except ReadError Reader :=
  path.foldlM Reader.step reader

end Reader

end RecordLayout
