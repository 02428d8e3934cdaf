/-
**Descriptions of records.**

A record is described as a list of named fields in the order of the wire. The kind of a field is
an integer, an enumeration, a mask, a nested struct, an array, a view (a tagged union), a constant,
or a derived size. Nothing here is checked: `RecordLayout.Compile` judges a description and turns
it into a layout.

Integers without a byte order of their own take the one of the nearest struct around them that
states one, and the order of the whole record otherwise.
-/

import RecordLayout.Enumeration
import RecordLayout.Mask
import RecordLayout.SizeExpr

namespace RecordLayout

/-- How many elements an array has; `φ` is the format of a stored count. -/
inductive ArrayLength (φ : Type) where
  /-- Exactly `count` elements; no count is stored. -/
  | fixed (count : UInt64)
  /-- At most `capacity` elements behind their number. -/
  | bounded (capacity : UInt64) (counter : φ)
  deriving DecidableEq, Repr

mutual

/-- The kind of a field. -/
inductive LayoutSpec where
  | int (spec : IntSpec)
  | enum (spec : EnumSpec)
  | mask (spec : MaskSpec)
  /-- A nested record; without an order of its own it takes the one around it. -/
  | struct (fields : List FieldSpec) (order : Option ByteOrder)
  | array (element : LayoutSpec) (length : ArrayLength IntSpec)
  /-- A key, followed by the payload of the variant that has it. -/
  | view (key : IntSpec) (variants : List VariantSpec)
  /-- An integer with a fixed value. -/
  | constant (format : IntSpec) (value : UInt64)
  /-- An integer computed from the fields around it. -/
  | derived (format : IntSpec) (expr : SizeExpr String)

/-- A named field. -/
structure FieldSpec where
  name : String
  kind : LayoutSpec

/-- A variant of a view. -/
structure VariantSpec where
  name : String
  key : UInt64
  kind : LayoutSpec

end

/-- A whole record. -/
structure RecordSpec where
  fields : List FieldSpec
  /-- The byte order of the record, most significant byte first unless stated. -/
  order : Option ByteOrder

end RecordLayout
